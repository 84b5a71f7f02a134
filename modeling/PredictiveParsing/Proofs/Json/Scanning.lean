import PredictiveParsing.Json.Scan
import PredictiveParsing.Proofs.Json.Printing

/-!
# What is printed is read back

A value whose numbers are integers of 64 bits (`Integral`) is found again in its printed text: the
scan of the text is the whole scan of the value (`ofDoc_pretty`). A string is found behind its
escapes (`stringBody_quoted`) and a number behind its digits (`numberAfterSign_toDigits`);
`reads_of_integral` goes through a value, with fuel for each of its characters.
-/

namespace PredictiveParsing

/-! ## Numbers -/

/-- An integer that a document can hold. -/
def Number.Integral : Number → Prop
  | integer n => -0x8000000000000000 ≤ n ∧ n < digitLimit
  | decimal .. => False

namespace Number

theorem le_foldl_digits (n : Nat) (ds : List Nat) : n ≤ ds.foldl (fun n d => n * 10 + d) n := by
  induction ds generalizing n with
  | nil => exact Nat.le_refl n
  | cons d ds ih => exact Nat.le_trans (by omega) (ih (n * 10 + d))

theorem absorb_eq {n : Nat} {ds : List Nat}
    (h : ds.foldl (fun n d => n * 10 + d) n < digitLimit) :
    absorb n ds = (ds.foldl (fun n d => n * 10 + d) n, ds.length) := by
  induction ds generalizing n with
  | nil => rfl
  | cons d ds ih =>
    have hd : n * 10 + d < digitLimit := Nat.lt_of_le_of_lt (le_foldl_digits _ ds) h
    rw [absorb, if_pos hd, ih h]
    rfl

/-- The value of a decimal digit. -/
def digitValue (c : Char) : Nat := c.toNat - '0'.toNat

theorem foldl_digitValue (n : Nat) :
    ((Nat.toDigits 10 n).map digitValue).foldl (fun n d => n * 10 + d) 0 = n := by
  have h := @Nat.ofDigitChars_ten_toDigits n
  rw [Nat.ofDigitChars_eq_foldl] at h
  rw [List.foldl_map]
  simpa only [digitValue, Nat.mul_comm] using h

theorem absorb_toDigits {n : Nat} (h : n < digitLimit) :
    absorb 0 ((Nat.toDigits 10 n).map digitValue) = (n, (Nat.toDigits 10 n).length) := by
  rw [absorb_eq (by rwa [foldl_digitValue]), foldl_digitValue, List.length_map]

theorem ofDigits_nat {n : Nat} (h : n < digitLimit) :
    ofDigits false ((Nat.toDigits 10 n).map digitValue) [] none = integer n := by
  simp [ofDigits, absorb_toDigits h]

theorem ofDigits_neg {n : Nat} (hpos : 0 < n) (h : n ≤ 0x8000000000000000) :
    ofDigits true ((Nat.toDigits 10 n).map digitValue) [] none = integer (-n) := by
  have hlimit : n < digitLimit := Nat.lt_of_le_of_lt h (by decide)
  simp [ofDigits, absorb_toDigits hlimit, hpos, h]

/-- Only zero is written with a zero in front. -/
theorem digitValue_head_ne {n : Nat} (hn : 0 < n) {c : Char} {cs : List Char}
    (h : Nat.toDigits 10 n = c :: cs) : digitValue c ≠ 0 := by
  induction n using Nat.strongRecOn generalizing cs with
  | ind n ih =>
    by_cases hten : n < 10
    · rw [Nat.toDigits_of_lt_base hten] at h
      obtain ⟨rfl, -⟩ := List.cons.inj h
      have hall : ∀ m < 10, 0 < m → digitValue m.digitChar ≠ 0 := by decide
      exact hall n hten hn
    · rw [Nat.toDigits_of_base_le (by decide) (by omega)] at h
      cases hinit : Nat.toDigits 10 (n / 10) with
      | nil => exact absurd hinit Nat.toDigits_ne_nil
      | cons a init =>
        rw [hinit] at h
        obtain ⟨rfl, -⟩ := List.cons.inj h
        exact ih (n / 10) (by omega) (by omega) hinit

end Number

namespace Scan

/-- Nothing here goes on with a number that stands in front. -/
def EndsNumber : Doc → Prop
  | some c :: _ => c.isDigit = false ∧ c ≠ '.' ∧ c ≠ 'e' ∧ c ≠ 'E'
  | _ => True

theorem digits_of_endsNumber {rest : Doc} (h : EndsNumber rest) : digits rest = ([], rest) := by
  match rest, h with
  | [], _ => rfl
  | none :: _, _ => rfl
  | some c :: d, h => simp [digits, digit?, h.1]

theorem digits_append {cs : List Char} (hcs : ∀ c ∈ cs, c.isDigit = true) {rest : Doc}
    (hrest : EndsNumber rest) :
    digits (cs.map some ++ rest) = (cs.map Number.digitValue, rest) := by
  induction cs with
  | nil => exact digits_of_endsNumber hrest
  | cons c cs ih =>
    obtain ⟨hc, hcs⟩ := List.forall_mem_cons.mp hcs
    simp [digits, digit?, hc, ih hcs, Number.digitValue]

theorem wholePart_toDigits (n : Nat) {rest : Doc} (hrest : EndsNumber rest) :
    wholePart ((Nat.toDigits 10 n).map some ++ rest) =
      some ((Nat.toDigits 10 n).map Number.digitValue, rest) := by
  have hdigits := digits_append (fun c hc =>
    Nat.isDigit_of_mem_toDigits (b := 10) (n := n) (by decide) (by decide) hc) hrest
  cases hcs : Nat.toDigits 10 n with
  | nil => exact absurd hcs Nat.toDigits_ne_nil
  | cons c cs =>
    rw [hcs] at hdigits
    have hsome : someDigits ((c :: cs).map some ++ rest) =
        some ((c :: cs).map Number.digitValue, rest) := by
      rw [someDigits, hdigits]
      rfl
    rw [wholePart, hsome]
    split
    next heq =>
      -- A zero in front of another digit.
      have hlist := congrArg Prod.fst (Option.some.inj heq)
      have hzero : n = 0 := Nat.eq_zero_of_not_pos fun hn =>
        Number.digitValue_head_ne hn hcs (List.cons.inj hlist).1
      rw [hzero] at hcs
      cases hcs
      cases hlist
    next => rfl

theorem fractionPart_of_endsNumber {rest : Doc} (h : EndsNumber rest) :
    fractionPart rest = some ([], rest) := by
  match rest, h with
  | [], _ => rfl
  | none :: _, _ => rfl
  | some c :: d, h => simp [fractionPart, h.2.1]

theorem exponentPart_of_endsNumber {rest : Doc} (h : EndsNumber rest) :
    exponentPart rest = some (none, rest) := by
  match rest, h with
  | [], _ => rfl
  | none :: _, _ => rfl
  | some c :: d, h => simp [exponentPart, h.2.2.1, h.2.2.2]

theorem numberAfterSign_toDigits (negative : Bool) (n : Nat) {rest : Doc}
    (hrest : EndsNumber rest) :
    numberAfterSign negative ((Nat.toDigits 10 n).map some ++ rest) =
      some (.ofDigits negative ((Nat.toDigits 10 n).map Number.digitValue) [] none, rest) := by
  simp [numberAfterSign, wholePart_toDigits n hrest, fractionPart_of_endsNumber hrest,
    exponentPart_of_endsNumber hrest]

/-! ## Strings -/

theorem hexDigitsValue?_hexPair : ∀ n < 0x20,
    hexDigitsValue? (['0', '0', Nat.digitChar (n / 16), Nat.digitChar (n % 16)].map some) =
      some n := by
  decide

theorem stringBody_unicode {n : Nat} (hn : n < 0x20) (so : Collected) (d : Doc) :
    stringBody so (("\\u00" ++ Json.hexPair n).toList.map some ++ d) =
      stringBody (so.push (Char.ofNat n)) d := by
  have hhex := hexDigitsValue?_hexPair n hn
  simp only [List.map_cons, List.map_nil] at hhex
  have hlow : isLowSurrogate n = false := by simp [isLowSurrogate]; omega
  have hhigh : isHighSurrogate n = false := by simp [isHighSurrogate]; omega
  simp [Json.hexPair, stringBody, hhex, hlow, hhigh]

theorem stringBody_plain {c : Char} (hquote : c ≠ '"') (hslash : c ≠ '\\') (hc : ¬ c.toNat < 0x20)
    (so : Collected) (d : Doc) : stringBody so (some c :: d) = stringBody (so.push c) d := by
  rw [stringBody, if_neg hc]
  all_goals simp_all

/-- What is written for a character is read as that character. -/
theorem stringBody_escapeChar (c : Char) (so : Collected) (d : Doc) :
    stringBody so ((Json.escapeChar c).toList.map some ++ d) = stringBody (so.push c) d := by
  unfold Json.escapeChar
  split
  next h => subst h; simp [stringBody, letterEscape?]
  split
  next h => subst h; simp [stringBody, letterEscape?]
  split
  next h => subst h; simp [stringBody, letterEscape?]
  split
  next h => subst h; simp [stringBody, letterEscape?]
  split
  next h => subst h; simp [stringBody, letterEscape?]
  split
  next h =>
    obtain rfl : c = Char.ofNat 8 := by rw [← h, Char.ofNat_toNat]
    simp [stringBody, letterEscape?]
  split
  next h =>
    obtain rfl : c = Char.ofNat 12 := by rw [← h, Char.ofNat_toNat]
    simp [stringBody, letterEscape?]
  split
  next h => simpa using stringBody_unicode h so d
  next hquote hslash _ _ _ _ _ hc =>
    simpa using stringBody_plain hquote hslash hc so d

theorem stringBody_quoted (s : String) (rest : Doc) :
    ∃ body, (Json.quoted s).map some = some '"' :: body ∧
      stringBody (some []) (body ++ rest) = some (some s, rest) := by
  have hbody : ∀ (cs so : List Char),
      stringBody (some so) ((cs.flatMap fun c => (Json.escapeChar c).toList).map some ++
        some '"' :: rest) = some (some (String.ofList (so.reverse ++ cs)), rest) := by
    intro cs
    induction cs with
    | nil => simp [stringBody, Collected.text]
    | cons c cs ih =>
      intro so
      rw [List.flatMap_cons, List.map_append, List.append_assoc, stringBody_escapeChar]
      simpa [Collected.push] using ih (c :: so)
  refine ⟨(s.toList.flatMap fun c => (Json.escapeChar c).toList).map some ++ [some '"'], ?_, ?_⟩
  · simp [Json.quoted]
  · simpa using hbody s.toList []

/-! ## Blanks -/

theorem skipBlank_lineBreak (level : Nat) (d : Doc) :
    skipBlank ((Json.lineBreak level).map some ++ d) = skipBlank d := by
  have hblanks : ∀ n, skipBlank ((List.replicate n ' ').map some ++ d) = skipBlank d := by
    intro n
    induction n with
    | zero => rfl
    | succ n ih => simpa [List.replicate_succ, skipBlank, isBlank] using ih
  simpa [Json.lineBreak, skipBlank, isBlank] using hblanks (2 * level)

theorem skipBlank_skipBlank (d : Doc) : skipBlank (skipBlank d) = skipBlank d := by
  induction d with
  | nil => rfl
  | cons x d ih =>
    cases x with
    | none => rfl
    | some c =>
      rw [skipBlank]
      split
      next => exact ih
      next hc => rw [skipBlank, if_neg hc]

theorem value_eq_of_skipBlank {d e : Doc} (h : skipBlank d = skipBlank e) (fuel : Nat) :
    value fuel d = value fuel e := by
  cases fuel with
  | zero => rfl
  | succ fuel => rw [value, value, h]

theorem value_lineBreak (fuel level : Nat) (d : Doc) :
    value fuel ((Json.lineBreak level).map some ++ d) = value fuel d :=
  value_eq_of_skipBlank (skipBlank_lineBreak level d) fuel

end Scan

/-! ## Values -/

/-- Every number in the value is an integer that a document can hold. -/
inductive Json.Integral : Json → Prop where
  | null : Integral null
  | bool (b : Bool) : Integral (bool b)
  | number {n : Number} (h : n.Integral) : Integral (number n)
  | string (s : String) : Integral (string s)
  | array {items : List Json} (h : ∀ v ∈ items, Integral v) : Integral (array items)
  | object {members : List (String × Json)} (h : ∀ m ∈ members, Integral m.2) :
    Integral (object members)

namespace Scan

mutual

/-- The scan of a value from which nothing is missing. -/
def ofJson : Json → Scan
  | .null => null
  | .bool b => bool b
  | .number n => number n
  | .string s => string (some s)
  | .array items => array (ofItems items) true
  | .object members => object (ofMembers members) true

def ofItems : List Json → List Scan
  | [] => []
  | v :: vs => ofJson v :: ofItems vs

def ofMembers : List (String × Json) → List (Option String × Scan)
  | [] => []
  | (k, v) :: rest => (some k, ofJson v) :: ofMembers rest

end

/-- The value is found in front of whatever does not go on with a number. -/
def Reads (level : Nat) (v : Json) : Prop :=
  ∀ fuel rest, (Json.chars level v).length < fuel → EndsNumber rest →
    value fuel ((Json.chars level v).map some ++ rest) = (ofJson v, some rest)

theorem endsNumber_lineBreak (level : Nat) (d : Doc) :
    EndsNumber ((Json.lineBreak level).map some ++ d) := by
  simp [Json.lineBreak, EndsNumber]

theorem value_digits {c : Char} (hc : c.isDigit = true) (fuel : Nat) (d : Doc) :
    value (fuel + 1) (some c :: d) = numberValue (numberAfterSign false (some c :: d)) := by
  have hne : ∀ x : Char, x.isDigit = false → c ≠ x := by
    rintro x hx rfl
    exact Bool.false_ne_true (hx.symm.trans hc)
  have hblank : isBlank c = false := by
    simp [isBlank, hne ' ' (by decide), hne '\t' (by decide), hne '\r' (by decide),
      hne '\n' (by decide)]
  rw [value, skipBlank, hblank]
  simp only [Bool.false_eq_true, if_false]
  split <;> simp_all

theorem toDigits_eq_cons (n : Nat) :
    ∃ c cs, Nat.toDigits 10 n = c :: cs ∧ c.isDigit = true := by
  cases hcs : Nat.toDigits 10 n with
  | nil => exact absurd hcs Nat.toDigits_ne_nil
  | cons c cs =>
    have hmem : c ∈ Nat.toDigits 10 n := hcs ▸ List.mem_cons_self
    exact ⟨c, cs, rfl, Nat.isDigit_of_mem_toDigits (by decide) (by decide) hmem⟩

theorem value_toDigits (n fuel : Nat) (rest : Doc) :
    value (fuel + 1) ((Nat.toDigits 10 n).map some ++ rest) =
      numberValue (numberAfterSign false ((Nat.toDigits 10 n).map some ++ rest)) := by
  obtain ⟨c, cs, hcs, hc⟩ := toDigits_eq_cons n
  rw [hcs]
  exact value_digits hc fuel _

theorem reads_number {n : Number} (h : n.Integral) (level : Nat) : Reads level (.number n) := by
  intro fuel rest hfuel hrest
  obtain ⟨fuel, rfl⟩ : ∃ k, fuel = k + 1 := ⟨fuel - 1, by omega⟩
  match n, h with
  | .integer (.ofNat n), h =>
    have hchars : Json.chars level (.number (.integer (.ofNat n))) = Nat.toDigits 10 n :=
      String.toList_ofList
    rw [hchars, value_toDigits, numberAfterSign_toDigits false n hrest,
      Number.ofDigits_nat (Int.ofNat_lt.mp h.2)]
    rfl
  | .integer (.negSucc n), h =>
    have hchars : Json.chars level (.number (.integer (.negSucc n))) =
        '-' :: Nat.toDigits 10 (n + 1) := by
      have htext : toString (Int.negSucc n) = "-" ++ Nat.repr (n + 1) := rfl
      simp [Json.chars, Number.text?, htext, Nat.repr]
    have hn : n + 1 ≤ 0x8000000000000000 := by
      have := h.1
      omega
    have hsign : value (fuel + 1) (some '-' :: ((Nat.toDigits 10 (n + 1)).map some ++ rest)) =
        numberValue (numberAfterSign true ((Nat.toDigits 10 (n + 1)).map some ++ rest)) := by
      simp [value, skipBlank, isBlank]
    rw [hchars, List.map_cons, List.cons_append, hsign,
      numberAfterSign_toDigits true (n + 1) hrest, Number.ofDigits_neg (by omega) hn]
    rfl

/-! ## Items and members -/

section Parts

variable {level : Nat} (close : Nat) (rest : Doc)

/-- Items that come to an end are those of an array. -/
theorem value_array {fuel : Nat} {d : Doc} {s : Scan} (h : items fuel [] d = (s, some rest)) :
    value (fuel + 1) (some '[' :: d) = (s, some rest) := by
  have hbracket : skipBlank (some '[' :: d) = some '[' :: d := rfl
  rw [value, hbracket]
  cases fuel with
  | zero => simp [items, stop] at h
  | succ fuel =>
    simp only
    split
    next hd =>
      -- No item begins with the closing bracket.
      have hvalue : value fuel d = stop broken := by
        cases fuel with
        | zero => rfl
        | succ fuel => rw [value, hd]; rfl
      simp [items, hvalue, stop] at h
    next =>
      rw [items, value_eq_of_skipBlank (skipBlank_skipBlank d)]
      rwa [items] at h

/-- Members that come to an end are those of an object. -/
theorem value_object {fuel : Nat} {d : Doc} {s : Scan} (h : members fuel [] d = (s, some rest)) :
    value (fuel + 1) (some '\x7b' :: d) = (s, some rest) := by
  have hbrace : skipBlank (some '\x7b' :: d) = some '\x7b' :: d := rfl
  rw [value, hbrace]
  cases fuel with
  | zero => simp [members, stop] at h
  | succ fuel =>
    simp only
    split
    next hd => simp [members, hd, stop] at h
    next =>
      rw [members, skipBlank_skipBlank]
      rwa [members] at h

theorem items_chars {vs : List Json} (hvs : ∀ v ∈ vs, Reads level v) {v : Json}
    (hv : Reads level v) (so : List Scan) (fuel : Nat)
    (hfuel : (Json.chars level v).length + (Json.itemChars level vs).length + 1 < fuel) :
    items fuel so ((Json.lineBreak level).map some ++ ((Json.chars level v).map some ++
      ((Json.itemChars level vs).map some ++
        ((Json.lineBreak close).map some ++ some ']' :: rest)))) =
      (array (so.reverse ++ ofItems (v :: vs)) true, some rest) := by
  induction vs generalizing v so fuel with
  | nil =>
    obtain ⟨fuel, rfl⟩ : ∃ k, fuel = k + 1 := ⟨fuel - 1, by omega⟩
    have hread := hv fuel ((Json.lineBreak close).map some ++ some ']' :: rest) (by omega)
      (endsNumber_lineBreak close _)
    rw [items, value_lineBreak, Json.itemChars, List.map_nil, List.nil_append, hread]
    simp [skipBlank_lineBreak, skipBlank, isBlank, ofItems]
  | cons w ws ih =>
    obtain ⟨hw, hws⟩ := List.forall_mem_cons.mp hvs
    obtain ⟨fuel, rfl⟩ : ∃ k, fuel = k + 1 := ⟨fuel - 1, by omega⟩
    simp only [Json.itemChars, List.length_cons, List.length_append] at hfuel
    have hread := hv fuel ((Json.itemChars level (w :: ws)).map some ++
      ((Json.lineBreak close).map some ++ some ']' :: rest)) (by omega)
      (by simp [Json.itemChars, EndsNumber])
    have hnext := ih hws hw (ofJson v :: so) fuel (by omega)
    rw [items, value_lineBreak, hread]
    simpa [Json.itemChars, skipBlank, isBlank, ofItems] using hnext

/-- A member is read, and the members go on behind a comma and end at a brace. -/
theorem members_quoted (k : String) {fuel : Nat} {s : Scan} {d d' : Doc}
    (h : value fuel d = (s, some d')) (so : List (Option String × Scan)) {m : Doc}
    (hm : m = (Json.lineBreak level).map some ++ ((Json.quoted k).map some ++
      some ':' :: some ' ' :: d)) :
    (∀ after, skipBlank d' = some ',' :: after →
      members (fuel + 1) so m = members fuel ((some k, s) :: so) after) ∧
    ∀ after, skipBlank d' = some '\x7d' :: after →
      members (fuel + 1) so m = (object ((some k, s) :: so).reverse true, some after) := by
  obtain ⟨body, hquoted, hbody⟩ := stringBody_quoted k (some ':' :: some ' ' :: d)
  have hkey : skipBlank m = some '"' :: (body ++ some ':' :: some ' ' :: d) := by
    rw [hm, hquoted, skipBlank_lineBreak]
    rfl
  have hcolon : skipBlank (some ':' :: some ' ' :: d) = some ':' :: some ' ' :: d := rfl
  have hblank : skipBlank (some ' ' :: d) = skipBlank d := rfl
  have hvalue : value fuel (some ' ' :: d) = (s, some d') :=
    (value_eq_of_skipBlank hblank fuel).trans h
  refine ⟨fun after hafter => ?_, fun after hafter => ?_⟩
  · rw [members, hkey]
    simp only [hbody, hcolon, hvalue, hafter]
  · rw [members, hkey]
    simp only [hbody, hcolon, hvalue, hafter]

theorem members_chars {ms : List (String × Json)} (hms : ∀ m ∈ ms, Reads level m.2) {k : String}
    {v : Json} (hv : Reads level v) (so : List (Option String × Scan)) (fuel : Nat)
    (hfuel : (Json.chars level v).length + (Json.memberChars level ms).length + 1 < fuel) :
    members fuel so ((Json.lineBreak level).map some ++ ((Json.quoted k).map some ++
      some ':' :: some ' ' :: ((Json.chars level v).map some ++
        ((Json.memberChars level ms).map some ++
          ((Json.lineBreak close).map some ++ some '\x7d' :: rest))))) =
      (object (so.reverse ++ ofMembers ((k, v) :: ms)) true, some rest) := by
  induction ms generalizing k v so fuel with
  | nil =>
    obtain ⟨fuel, rfl⟩ : ∃ k, fuel = k + 1 := ⟨fuel - 1, by omega⟩
    have hread := hv fuel ((Json.lineBreak close).map some ++ some '\x7d' :: rest) (by omega)
      (endsNumber_lineBreak close _)
    rw [Json.memberChars, List.map_nil, List.nil_append,
      (members_quoted k hread so rfl).2 rest (skipBlank_lineBreak ..)]
    simp [ofMembers]
  | cons m ms ih =>
    obtain ⟨hm, hms⟩ := List.forall_mem_cons.mp hms
    obtain ⟨fuel, rfl⟩ : ∃ k, fuel = k + 1 := ⟨fuel - 1, by omega⟩
    simp only [Json.memberChars, List.length_cons, List.length_append] at hfuel
    have hread := hv fuel ((Json.memberChars level (m :: ms)).map some ++
      ((Json.lineBreak close).map some ++ some '\x7d' :: rest)) (by omega)
      (by simp [Json.memberChars, EndsNumber])
    have hnext := @ih hms m.1 m.2 hm ((some k, ofJson v) :: so) fuel (by omega)
    rw [(members_quoted k hread so rfl).1 _ rfl]
    simpa [ofMembers] using hnext

end Parts

/-! ## Values -/

/-- A value that is printed at any level is found again. -/
theorem reads_of_integral {v : Json} (h : v.Integral) (level : Nat) : Reads level v := by
  induction h generalizing level with
  | null =>
    intro fuel rest hfuel _
    obtain ⟨fuel, rfl⟩ : ∃ k, fuel = k + 1 := ⟨fuel - 1, by omega⟩
    simp [Json.chars, value, skipBlank, isBlank, word, after, ofJson]
  | bool b =>
    intro fuel rest hfuel _
    obtain ⟨fuel, rfl⟩ : ∃ k, fuel = k + 1 := ⟨fuel - 1, by omega⟩
    cases b <;> simp [Json.chars, value, skipBlank, isBlank, word, after, ofJson]
  | number h => exact reads_number h level
  | string s =>
    intro fuel rest hfuel _
    obtain ⟨fuel, rfl⟩ : ∃ k, fuel = k + 1 := ⟨fuel - 1, by omega⟩
    obtain ⟨body, hquoted, hbody⟩ := stringBody_quoted s rest
    rw [Json.chars, hquoted]
    simp [value, skipBlank, isBlank, hbody, ofJson]
  | @array items _ ih =>
    intro fuel rest hfuel _
    obtain ⟨fuel, rfl⟩ : ∃ k, fuel = k + 1 := ⟨fuel - 1, by omega⟩
    cases items with
    | nil => simp [Json.chars, value, skipBlank, isBlank, ofJson, ofItems]
    | cons v vs =>
      simp only [Json.chars, List.length_cons, List.length_append] at hfuel
      obtain ⟨hv, hvs⟩ := List.forall_mem_cons.mp ih
      have hread := items_chars level rest (fun w hw => hvs w hw (level + 1)) (hv (level + 1)) []
        fuel (by omega)
      simpa [Json.chars, ofJson] using value_array rest hread
  | @object members _ ih =>
    intro fuel rest hfuel _
    obtain ⟨fuel, rfl⟩ : ∃ k, fuel = k + 1 := ⟨fuel - 1, by omega⟩
    cases members with
    | nil => simp [Json.chars, value, skipBlank, isBlank, ofJson, ofMembers]
    | cons m ms =>
      simp only [Json.chars, List.length_cons, List.length_append] at hfuel
      obtain ⟨hm, hms⟩ := List.forall_mem_cons.mp ih
      have hread := members_chars level rest (fun m' hm' => hms m' hm' (level + 1))
        (k := m.1) (hm (level + 1)) [] fuel (by omega)
      simpa [Json.chars, ofJson] using value_object rest hread

theorem ofDoc_pretty {v : Json} (h : v.Integral) :
    ofDoc (Doc.ofString v.pretty) = (ofJson v, true) := by
  have hchars : Doc.ofString v.pretty = (Json.chars 0 v).map some := by
    rw [Doc.ofString, Json.toList_pretty]
  have hread := reads_of_integral h 0 (2 * (Doc.ofString v.pretty).length + 2) []
    (by rw [hchars, List.length_map]; omega) trivial
  rw [List.append_nil, ← hchars] at hread
  rw [ofDoc, hread]
  rfl

end Scan

end PredictiveParsing
