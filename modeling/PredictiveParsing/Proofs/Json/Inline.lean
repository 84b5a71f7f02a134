import PredictiveParsing.Proofs.Json.Scanning

/-!
# Arrays on one line

A text stands for a value when the value is found in it, whatever comes next that does not go on with
a number. Texts between commas and brackets stand for the array of what they stand for
(`stands_listed`), and a text without quotes, slashes and control characters, between quotes, for
itself (`stands_quoted`).
-/

namespace PredictiveParsing.Scan

/-- The value is found in front of whatever does not go on with a number. -/
def Stands (text : List Char) (v : Json) : Prop :=
  ∀ fuel rest, text.length < fuel → EndsNumber rest →
    value fuel (text.map some ++ rest) = (ofJson v, some rest)

theorem stands_chars {v : Json} (h : v.Integral) (level : Nat) : Stands (Json.chars level v) v :=
  reads_of_integral h level

/-! ## Texts -/

/-- Written between quotes as it is. -/
def isPlain (text : List Char) : Bool :=
  text.all fun c => c ≠ '"' && c ≠ '\\' && 0x20 ≤ c.toNat

theorem isPlain_append {text more : List Char} (h : isPlain text = true)
    (h' : isPlain more = true) : isPlain (text ++ more) = true := by
  rw [isPlain, List.all_append, Bool.and_eq_true]
  exact ⟨h, h'⟩

theorem isPlain_intercalate {blank : List Char} (hblank : isPlain blank = true)
    {words : List (List Char)} (hwords : ∀ word ∈ words, isPlain word = true) :
    isPlain (blank.intercalate words) = true := by
  induction words with
  | nil => rfl
  | cons word words ih =>
    obtain ⟨hword, hwords⟩ := List.forall_mem_cons.mp hwords
    cases words with
    | nil => simpa using hword
    | cons next words =>
      rw [List.intercalate_cons_cons]
      exact isPlain_append (isPlain_append hword hblank) (ih hwords)

theorem escapeChar_of_isPlain {text : List Char} (h : isPlain text = true) {c : Char}
    (hc : c ∈ text) : Json.escapeChar c = c.toString := by
  have hplain := List.all_eq_true.mp h c hc
  simp only [Bool.and_eq_true, decide_eq_true_eq] at hplain
  obtain ⟨⟨hquote, hslash⟩, hc⟩ := hplain
  have hne : ∀ x : Char, x.toNat < 0x20 → c ≠ x := by
    rintro x hx rfl
    exact Nat.not_lt.mpr hc hx
  rw [Json.escapeChar, if_neg hquote, if_neg hslash, if_neg (hne '\n' (by decide)),
    if_neg (hne '\r' (by decide)), if_neg (hne '\t' (by decide)), if_neg (by omega),
    if_neg (by omega), if_neg (by omega)]

theorem stands_quoted {s : String} (h : isPlain s.toList = true) :
    Stands ('"' :: (s.toList ++ ['"'])) (.string s) := by
  have hsame : (s.toList.flatMap fun c => (Json.escapeChar c).toList) = s.toList := by
    have hsingle : ∀ c ∈ s.toList, (Json.escapeChar c).toList = [c] := fun c hc => by
      rw [escapeChar_of_isPlain h hc]
      simp
    rw [List.flatMap_def, List.map_congr_left hsingle, ← List.flatMap_def, List.flatMap_singleton']
  have hchars : Json.chars 0 (.string s) = '"' :: (s.toList ++ ['"']) := by
    rw [Json.chars, Json.quoted, hsame]
    rfl
  exact hchars ▸ stands_chars (.string s) 0

/-! ## Arrays -/

section Items

variable {β : Type} {write : β → List Char} {json : β → Json}

theorem items_intercalate {x : β} {xs : List β} (h : ∀ y ∈ x :: xs, Stands (write y) (json y))
    (so : List Scan) (fuel : Nat) (rest : Doc)
    (hfuel : ([','].intercalate ((x :: xs).map write)).length + 1 < fuel) :
    items fuel so (([','].intercalate ((x :: xs).map write)).map some ++ some ']' :: rest) =
      (array (so.reverse ++ ofItems ((x :: xs).map json)) true, some rest) := by
  induction xs generalizing x so fuel with
  | nil =>
    obtain ⟨fuel, rfl⟩ : ∃ k, fuel = k + 1 := ⟨fuel - 1, by omega⟩
    rw [List.map_singleton, List.intercalate_singleton] at hfuel ⊢
    rw [items, h x (List.mem_singleton_self x) fuel _ (by omega) (by simp [EndsNumber])]
    simp [skipBlank, isBlank, ofItems]
  | cons y ys ih =>
    obtain ⟨hx, hxs⟩ := List.forall_mem_cons.mp h
    obtain ⟨fuel, rfl⟩ : ∃ k, fuel = k + 1 := ⟨fuel - 1, by omega⟩
    rw [List.map_cons, List.map_cons, List.intercalate_cons_cons, ← List.map_cons] at hfuel ⊢
    simp only [List.length_append, List.length_singleton] at hfuel
    have hnext := ih hxs (ofJson (json x) :: so) fuel (by omega)
    have hitem := hx fuel (some ',' :: (([','].intercalate ((y :: ys).map write)).map some ++
      some ']' :: rest)) (by omega) (by simp [EndsNumber])
    simp only [List.map_append, List.append_assoc, List.map_cons, List.cons_append,
      List.nil_append] at hitem hnext ⊢
    rw [items, hitem]
    simpa [skipBlank, isBlank, ofItems] using hnext

theorem stands_listed {xs : List β} (h : ∀ x ∈ xs, Stands (write x) (json x)) :
    Stands ('[' :: ([','].intercalate (xs.map write) ++ [']'])) (.array (xs.map json)) := by
  intro fuel rest hfuel hrest
  obtain ⟨fuel, rfl⟩ : ∃ k, fuel = k + 1 := ⟨fuel - 1, by omega⟩
  cases xs with
  | nil => simp [value, skipBlank, isBlank, ofJson, ofItems]
  | cons x xs =>
    simp only [List.length_cons, List.length_append] at hfuel
    simpa [ofJson] using value_array rest (items_intercalate h [] fuel rest (by simpa using hfuel))

end Items

/-- A document that is one value is read whole. -/
theorem ofDoc_of_stands {text : List Char} {v : Json} (h : Stands text v) :
    ofDoc (text.map some) = (ofJson v, true) := by
  have hread := h (2 * (text.map some).length + 2) [] (by rw [List.length_map]; omega) trivial
  rw [List.append_nil] at hread
  rw [ofDoc, hread]
  rfl

end PredictiveParsing.Scan
