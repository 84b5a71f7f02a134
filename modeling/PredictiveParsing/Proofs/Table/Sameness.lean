import PredictiveParsing.Parse.Run
import PredictiveParsing.Proofs.Table.RoundTrip

/-!
# Which grammars a saved table is loaded for

A saved table says which grammar it is of by the names of the signs and the texts of the productions
only. It is loaded for every grammar with the same names and texts that it fits (`loads_iff_sameSigns`).
When no name hides where it ends or what it is (`Grammar.Legible`), the texts tell the productions,
sign by sign (`Grammar.Legible.sameSigns`); with a blank in a name they may not
(`loads_for_other_signs`). The start symbol is nowhere in a document: a table is loaded for a grammar
that starts elsewhere, and rejects sentences of it (`loads_for_another_start`).
-/

namespace PredictiveParsing

variable {α β : Type}

/-! ## Names -/

namespace Grammar

def names (g : Grammar α) : List String := g.terminals ++ g.nonTerminals

/-- No two signs have one name, and no name can be taken for something else in the text of a
production. -/
structure Legible (g : Grammar α) : Prop where
  nodup : g.names.Nodup
  no_blank : ∀ name ∈ g.names, ' ' ∉ name.toList
  not_empty : "empty" ∉ g.names

/-- Where the name of a sign stands among all names. -/
def place (g : Grammar α) : Sign → Nat
  | .terminal i => i
  | .nonTerminal i => g.terminals.length + i
  | .empty => 0
  | .pound => 0

variable {g : Grammar α}

theorem names_place {s : Sign} (h : g.fits s = true) : g.names[g.place s]? = some (g.nameOf s) := by
  cases s with
  | terminal i =>
    have hi := fits_terminal.mp h
    rw [names, place, nameOf, List.getElem?_append_left hi, List.getElem?_eq_getElem hi]
    rfl
  | nonTerminal i =>
    have hi := fits_nonTerminal.mp h
    simp [names, place, nameOf, hi]
  | empty => cases h
  | pound => cases h

theorem nameOf_mem_names {s : Sign} (h : g.fits s = true) : g.nameOf s ∈ g.names :=
  List.mem_of_getElem? (names_place h)

theorem place_inj {s t : Sign} (hs : g.fits s = true) (ht : g.fits t = true)
    (h : g.place s = g.place t) : s = t := by
  cases s <;> cases t <;> simp_all [fits, place]
  all_goals omega

theorem Legible.nameOf_inj (hg : g.Legible) {s t : Sign} (hs : g.fits s = true)
    (ht : g.fits t = true) (h : g.nameOf s = g.nameOf t) : s = t := by
  have hplaces : g.names[g.place s]? = g.names[g.place t]? := by
    rw [names_place hs, names_place ht, h]
  obtain ⟨hlt, -⟩ := List.getElem?_eq_some_iff.mp (names_place hs)
  exact place_inj hs ht ((List.getElem?_inj hlt hg.nodup).mp hplaces)

/-! ## Texts of productions -/

def bodyWords (g : Grammar α) (signs : List Sign) : List String :=
  if signs = [] then ["empty"] else signs.map g.nameOf

/-- The words of the text of a production `left -> right`. -/
def words (g : Grammar α) (left : Nat) (right : List Sign) : List String :=
  g.nameOf (.nonTerminal left) :: "->" :: g.bodyWords right

theorem textOf_eq_words (g : Grammar α) (p : Production α) :
    g.textOf p = " ".intercalate (g.words p.left p.right) := by
  have hbody : g.bodyWords p.right ≠ [] := by
    rw [bodyWords]
    split
    next => simp
    next h => simpa using h
  have harrow : " -> " = " " ++ ("->" ++ " ") := by decide
  rw [words, String.intercalate_cons_cons, String.intercalate_cons_of_ne_nil hbody, textOf, harrow,
    bodyWords]
  simp only [String.append_assoc]

section Legible

variable {left left' : Nat} {u v : List Sign} (hg : g.Legible)

include hg

theorem Legible.no_blank_words (hleft : left < g.nonTerminals.length) (hu : g.Fits u) :
    ∀ word ∈ g.words left u, ' ' ∉ word.toList := by
  have hbody : ∀ word ∈ g.bodyWords u, ' ' ∉ word.toList := by
    intro word hword
    rw [bodyWords] at hword
    split at hword
    next =>
      obtain rfl := List.mem_singleton.mp hword
      decide
    next =>
      obtain ⟨s, hs, rfl⟩ := List.mem_map.mp hword
      exact hg.no_blank _ (nameOf_mem_names (hu s hs))
  refine List.forall_mem_cons.mpr ⟨?_, List.forall_mem_cons.mpr ⟨by decide, hbody⟩⟩
  exact hg.no_blank _ (nameOf_mem_names (fits_nonTerminal.mpr hleft))

/-- The words are those between the blanks. -/
theorem Legible.splitOn_intercalate (hleft : left < g.nonTerminals.length) (hu : g.Fits u) :
    (" ".intercalate (g.words left u)).toList.splitOn ' ' = (g.words left u).map String.toList := by
  have hblank : ∀ l ∈ (g.words left u).map String.toList, ' ' ∉ l := by
    intro l hl
    obtain ⟨word, hword, rfl⟩ := List.mem_map.mp hl
    exact hg.no_blank_words hleft hu word hword
  rw [String.toList_intercalate]
  exact List.splitOn_intercalate ' ' hblank (by simp [words])

theorem Legible.map_nameOf_inj (hu : g.Fits u) (hv : g.Fits v)
    (h : u.map g.nameOf = v.map g.nameOf) : u = v := by
  induction u generalizing v with
  | nil => exact (List.map_eq_nil_iff.mp h.symm).symm
  | cons s u ih =>
    cases v with
    | nil => cases h
    | cons t v =>
      obtain ⟨hs, hu⟩ := fits_cons.mp hu
      obtain ⟨ht, hv⟩ := fits_cons.mp hv
      obtain ⟨hst, huv⟩ := List.cons.inj h
      rw [hg.nameOf_inj hs ht hst, ih hu hv huv]

/-- No right side is written as the empty one is. -/
theorem Legible.map_nameOf_ne (hu : g.Fits u) : u.map g.nameOf ≠ ["empty"] := by
  intro h
  have hempty : "empty" ∈ u.map g.nameOf := h ▸ List.mem_singleton_self _
  obtain ⟨s, hs, hname⟩ := List.mem_map.mp hempty
  exact hg.not_empty (hname ▸ nameOf_mem_names (hu s hs))

theorem Legible.bodyWords_inj (hu : g.Fits u) (hv : g.Fits v)
    (h : g.bodyWords u = g.bodyWords v) : u = v := by
  rw [bodyWords, bodyWords] at h
  split at h
  next hnil =>
    split at h
    next hnil' => rw [hnil, hnil']
    next => exact absurd h.symm (hg.map_nameOf_ne hv)
  next =>
    split at h
    next => exact absurd h (hg.map_nameOf_ne hu)
    next => exact hg.map_nameOf_inj hu hv h

/-- The text of a production tells its left side and its right side. -/
theorem Legible.text_inj (hleft : left < g.nonTerminals.length) (hu : g.Fits u)
    (hleft' : left' < g.nonTerminals.length) (hv : g.Fits v)
    (h : " ".intercalate (g.words left u) = " ".intercalate (g.words left' v)) :
    left = left' ∧ u = v := by
  have hwords : (g.words left u).map String.toList = (g.words left' v).map String.toList := by
    rw [← hg.splitOn_intercalate hleft hu, ← hg.splitOn_intercalate hleft' hv, h]
  have hinj := List.map_injective_iff.mpr (fun _ _ => String.toList_inj.mp) hwords
  obtain ⟨hname, htail⟩ := List.cons.inj hinj
  have hsign := hg.nameOf_inj (fits_nonTerminal.mpr hleft) (fits_nonTerminal.mpr hleft') hname
  exact ⟨Sign.nonTerminal.inj hsign, hg.bodyWords_inj hu hv (List.cons.inj htail).2⟩

end Legible

/-! ## Grammars that a document cannot tell apart -/

/-- The same names, and productions with the same texts. -/
structure Alike (g : Grammar α) (g' : Grammar β) : Prop where
  terminals : g'.terminals = g.terminals
  nonTerminals : g'.nonTerminals = g.nonTerminals
  texts : g'.productions.map g'.textOf = g.productions.map g.textOf

/-- The same names, and productions with the same signs; the start symbols may differ. -/
structure SameSigns (g : Grammar α) (g' : Grammar β) : Prop where
  terminals : g'.terminals = g.terminals
  nonTerminals : g'.nonTerminals = g.nonTerminals
  productions : List.Forall₂ (fun p p' => p.left = p'.left ∧ p.right = p'.right)
    g.productions g'.productions

variable {g' : Grammar β}

theorem nameOf_eq (hterminals : g'.terminals = g.terminals)
    (hnonTerminals : g'.nonTerminals = g.nonTerminals) (s : Sign) : g'.nameOf s = g.nameOf s := by
  cases s <;> simp [nameOf, hterminals, hnonTerminals]

theorem words_eq (hterminals : g'.terminals = g.terminals)
    (hnonTerminals : g'.nonTerminals = g.nonTerminals) (left : Nat) (u : List Sign) :
    g'.words left u = g.words left u := by
  have hname := funext (nameOf_eq hterminals hnonTerminals)
  simp only [words, bodyWords, hname]

theorem SameSigns.alike (h : g.SameSigns g') : g.Alike g' := by
  refine ⟨h.terminals, h.nonTerminals, ?_⟩
  have hproductions := h.productions
  generalize g.productions = ps at hproductions
  generalize g'.productions = ps' at hproductions
  induction hproductions with
  | nil => rfl
  | @cons p p' ps ps' hp _ ih =>
    have htext : g'.textOf p' = g.textOf p := by
      rw [textOf_eq_words, textOf_eq_words, words_eq h.terminals h.nonTerminals, hp.1, hp.2]
    rw [List.map_cons, List.map_cons, htext, ih]

/-- Texts of legible names are those of the same productions. -/
theorem Legible.sameSigns (hg : g.Legible) (hv : g.Valid) (hv' : g'.Valid) (h : g.Alike g') :
    g.SameSigns g' := by
  refine ⟨h.terminals, h.nonTerminals, ?_⟩
  have hfits : ∀ u, g'.Fits u → g.Fits u := by
    intro u hu s hs
    have := hu s hs
    cases s <;> simp_all [fits, h.terminals, h.nonTerminals]
  refine List.forall₂_iff_get.mpr ⟨?_, fun i hi hi' => ?_⟩
  · simpa using congrArg List.length h.texts.symm
  · have hp : g.productions[i] ∈ g.productions := List.getElem_mem hi
    have hp' : g'.productions[i] ∈ g'.productions := List.getElem_mem hi'
    have htext : g'.textOf g'.productions[i] = g.textOf g.productions[i] := by
      have hat := congrArg (fun texts => texts[i]?) h.texts
      simpa [show i < g.productions.length from hi, show i < g'.productions.length from hi'] using hat
    rw [textOf_eq_words, textOf_eq_words, words_eq h.terminals h.nonTerminals] at htext
    exact hg.text_inj (hv.left_lt _ hp) (hv.right_fits _ hp)
      (h.nonTerminals ▸ hv'.left_lt _ hp') (hfits _ (hv'.right_fits _ hp')) htext.symm

theorem SameSigns.fits (h : g.SameSigns g') {t : Table} (ht : t.Fits g) : t.Fits g' := by
  refine ⟨h.nonTerminals ▸ ht.rows_length, fun nt x i hi => ?_⟩
  obtain ⟨p, hp, hleft⟩ := ht.chosen nt x i hi
  obtain ⟨hlt, rfl⟩ := List.getElem?_eq_some_iff.mp hp
  obtain ⟨hlength, hsame⟩ := List.forall₂_iff_get.mp h.productions
  have hlt' : i < g'.productions.length := hlength ▸ hlt
  exact ⟨g'.productions[i], List.getElem?_eq_getElem hlt', (hsame i hlt hlt').1.symm.trans hleft⟩

end Grammar

/-! ## Results -/

variable {g : Grammar α} {g' : Grammar β} {c : Compiled}

theorem load_saved_eq_ok_iff (h : Compiled.ofGrammar g = .ok c)
    (hsize : g.productions.length ≤ Number.digitLimit) {t : Table} :
    Table.load g' (Doc.ofBytes (c.saved g)) = .ok t ↔ t = c.table ∧ g.Alike g' ∧ t.Fits g' := by
  rw [Table.load_eq (readDoc_saved h hsize), TableDocument.table_eq_ok_iff]
  constructor
  · rintro ⟨hterminals, hnonTerminals, htexts, hwidth, hrows, hfits⟩
    refine ⟨?_, ⟨hterminals.symm, hnonTerminals.symm, htexts.symm⟩, hfits⟩
    have hwidth' : t.terminals = c.table.terminals := by
      rw [hwidth, Compiled.terminals_of_ofGrammar h]
      exact congrArg List.length hterminals.symm
    obtain ⟨terminals, rows, _⟩ := t
    obtain rfl : terminals = c.table.terminals := hwidth'
    obtain rfl : rows = c.table.rows := hrows
    rfl
  · rintro ⟨rfl, halike, hfits⟩
    refine ⟨halike.terminals.symm, halike.nonTerminals.symm, halike.texts.symm, ?_, rfl, hfits⟩
    rw [halike.terminals]
    exact Compiled.terminals_of_ofGrammar h

/-- A saved table is loaded for just the grammars whose names and production texts are the same and
that it fits, always as the table that it was. For legible names these are the grammars with the
same productions, whatever symbol they start with. -/
theorem loads_iff_sameSigns (h : Compiled.ofGrammar g = .ok c)
    (hsize : g.productions.length ≤ Number.digitLimit) (g' : Grammar β) (t : Table) :
    (Table.load g' (Doc.ofBytes (c.saved g)) = .ok t ↔ t = c.table ∧ g.Alike g' ∧ t.Fits g') ∧
    (g.Legible → g'.Valid →
      (Table.load g' (Doc.ofBytes (c.saved g)) = .ok t ↔ t = c.table ∧ g.SameSigns g')) := by
  refine ⟨load_saved_eq_ok_iff h hsize, fun hg hv' => ?_⟩
  have hexact := Compiled.exact_of_ofGrammar h
  rw [load_saved_eq_ok_iff h hsize]
  constructor
  · rintro ⟨ht, halike, -⟩
    exact ⟨ht, hg.sameSigns hexact.valid hv' halike⟩
  · rintro ⟨rfl, hsame⟩
    exact ⟨rfl, hsame.alike, hsame.fits hexact.table.fits⟩

/-- `S -> T a`, `T -> empty | b`. -/
def fromS : Grammar Unit where
  terminals := ["a", "b"]
  nonTerminals := ["S", "T"]
  productions := [{ left := 0, right := [.nonTerminal 1, .terminal 0] },
    { left := 1, right := [] }, { left := 1, right := [.terminal 1] }]
  start := 0

/-- The same, but for what it starts with. -/
def fromT : Grammar Unit := { fromS with start := 1 }

theorem legible_fromS : fromS.Legible := ⟨by decide, by decide, by decide⟩

theorem sameSigns_fromT : fromS.SameSigns fromT :=
  ⟨rfl, rfl, .cons ⟨rfl, rfl⟩ (.cons ⟨rfl, rfl⟩ (.cons ⟨rfl, rfl⟩ .nil))⟩

theorem valid_fromT : fromT.Valid := Grammar.validate_eq_ok_iff.mp (by decide)

theorem loads_iff_sameSigns_fromT : ∃ c, Compiled.ofGrammar fromS = .ok c ∧
    c.table.rows = [[some 0, some 0, none], [some 1, some 2, none]] ∧
      ∀ t, Table.load fromT (Doc.ofBytes (c.saved fromS)) = .ok t ↔ t = c.table := by
  obtain ⟨c, h, hrows⟩ := Compiled.exists_of_map (g := fromS) (fun c => c.table.rows)
    (b := [[some 0, some 0, none], [some 1, some 2, none]]) (by decide +kernel)
  refine ⟨c, h, hrows, fun t => ?_⟩
  obtain ⟨-, hlegible⟩ := loads_iff_sameSigns h (by decide) fromT t
  rw [hlegible legible_fromS valid_fromT]
  exact and_iff_left sameSigns_fromT

def accepts (g : Grammar Unit) (t : Table) (tokens : List Token) : Bool :=
  ((Machine.mk g t Semantics.none).run tokens Pool.initial).verdict = .accepted

/-- The table of the one grammar is loaded for the other. With it the empty list of tokens, which
the other grammar derives and parses with a table of its own, is rejected. -/
theorem loads_for_another_start : fromT.start ≠ fromS.start ∧
    ∃ c own, Compiled.ofGrammar fromS = .ok c ∧ Compiled.ofGrammar fromT = .ok own ∧
      Table.load fromT (Doc.ofBytes (c.saved fromS)) = .ok c.table ∧
      accepts fromT own.table [] = true ∧ accepts fromT c.table [] = false := by
  obtain ⟨c, h, hloaded⟩ := Compiled.exists_of_map (g := fromS)
    (fun c => accepts fromT c.table []) (b := false) (by decide +kernel)
  obtain ⟨own, hown, hcompiled⟩ := Compiled.exists_of_map (g := fromT)
    (fun c => accepts fromT c.table []) (b := true) (by decide +kernel)
  have hfits := sameSigns_fromT.fits (Compiled.exact_of_ofGrammar h).table.fits
  have hload := (load_saved_eq_ok_iff h (by decide)).mpr ⟨rfl, sameSigns_fromT.alike, hfits⟩
  exact ⟨by decide, c, own, h, hown, hload, hcompiled, hloaded⟩

/-- A production of one sign. -/
def oneSign : Grammar Unit where
  terminals := ["a b", "a", "b"]
  nonTerminals := ["S"]
  productions := [{ left := 0, right := [.terminal 0] }]
  start := 0

/-- A production of two signs, with the same text. -/
def twoSigns : Grammar Unit :=
  { oneSign with productions := [{ left := 0, right := [.terminal 1, .terminal 2] }] }

/-- A blank in a name lets one text stand for two productions: the table is loaded, and looks for
the one to parse the other. -/
theorem loads_for_other_signs : ¬ oneSign.SameSigns twoSigns ∧
    ∃ c, Compiled.ofGrammar oneSign = .ok c ∧
      Table.load twoSigns (Doc.ofBytes (c.saved oneSign)) = .ok c.table ∧
      accepts twoSigns c.table [⟨"a", "a", 1⟩, ⟨"b", "b", 1⟩] = false := by
  obtain ⟨c, h, hloaded⟩ := Compiled.exists_of_map (g := oneSign)
    (fun c => accepts twoSigns c.table [⟨"a", "a", 1⟩, ⟨"b", "b", 1⟩]) (b := false) (by decide +kernel)
  have hsigns : ¬ oneSign.SameSigns twoSigns := by
    rintro ⟨-, -, hproductions⟩
    cases hproductions with
    | cons hp _ => exact absurd hp.2 (by decide)
  have hfits : c.table.Fits twoSigns := by
    refine ⟨(Compiled.exact_of_ofGrammar h).table.rows_length, fun nt x i hi => ?_⟩
    obtain ⟨p, hp, hleft, -⟩ := (Compiled.exact_of_ofGrammar h).table.claimed nt x i hi
    match i, hp with
    | 0, hp =>
      cases hp
      exact ⟨_, rfl, hleft⟩
  have hload : Table.load twoSigns (Doc.ofBytes (c.saved oneSign)) = .ok c.table :=
    (load_saved_eq_ok_iff h (by decide)).mpr ⟨rfl, ⟨rfl, rfl, by decide⟩, hfits⟩
  exact ⟨hsigns, c, h, hload, hloaded⟩

end PredictiveParsing
