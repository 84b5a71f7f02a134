import PredictiveParsing.Proofs.Json.Scanning
import PredictiveParsing.Proofs.Table.Fitting
import PredictiveParsing.Proofs.Text.Utf8

/-!
# A saved table is loaded again

A table document is read back field by field (`TableDocument.read_toJson`), and with it the text that
it is written as, when every index in it is one of 64 bits (`TableDocument.readDoc_render`). The
document of a compilation describes the compiled table (`TableDocument.describes_ofCompiled`), so it
is loaded as that table for the grammar it was made from, whatever its names and however often they
occur (`load_of_saved`).
-/

namespace PredictiveParsing

/-! ## Sequences and texts -/

namespace Scan

theorem sequence_ofJson {β : Type} {read : Scan → Except ReadFault β} {write : β → Json}
    {xs : List β} (h : ∀ x ∈ xs, read (ofJson (write x)) = .ok x) :
    sequence read (ofJson (.array (xs.map write))) = .ok xs := by
  have hitems : (ofItems (xs.map write)).mapM read = .ok xs := by
    induction xs with
    | nil => rfl
    | cons x xs ih =>
      obtain ⟨hx, hxs⟩ := List.forall_mem_cons.mp h
      rw [List.map_cons, ofItems, List.mapM_cons, hx, ih hxs]
      rfl
  rw [ofJson, sequence, hitems]
  rfl

theorem sequence_strings (ss : List String) : sequence text (ofJson (Json.strings ss)) = .ok ss :=
  sequence_ofJson fun _ _ => rfl

theorem countOrNull_option (cell : Option Nat) :
    countOrNull (ofJson (Json.option Json.nat cell)) = .ok cell := by
  cases cell with
  | none => rfl
  | some i => rfl

end Scan

/-! ## Documents -/

theorem NamedSet.read_toJson (s : NamedSet) : NamedSet.read (Scan.ofJson s.toJson) = .ok s := by
  have hsigns := Scan.sequence_strings s.signs
  simp [NamedSet.read, NamedSet.toJson, Scan.ofJson, Scan.ofMembers, Scan.record, fields, Scan.named,
    Scan.text, hsigns, pure, Except.pure, bind, Except.bind]

namespace TableDocument

/-- Reading a document of a table gives back every field of it. -/
theorem read_toJson (d : TableDocument) : read (Scan.ofJson d.toJson) = .ok d := by
  have hfirst := Scan.sequence_ofJson fun s (_ : s ∈ d.first) => s.read_toJson
  have hfollow := Scan.sequence_ofJson fun s (_ : s ∈ d.follow) => s.read_toJson
  have hcells := Scan.sequence_ofJson fun row (_ : row ∈ d.cells) =>
    Scan.sequence_ofJson fun cell (_ : cell ∈ row) => Scan.countOrNull_option cell
  simp only [read, toJson, Scan.ofJson, Scan.ofMembers, Scan.record] at hfirst hfollow hcells ⊢
  simp [fields, Scan.named, Scan.sequence_strings, hfirst, hfollow, hcells, pure, Except.pure, bind,
    Except.bind]

/-- Fields without names, in their order, are read as well. -/
theorem read_positional (d : TableDocument) :
    read (Scan.ofJson (.array [Json.strings d.terminals, Json.strings d.nonTerminals,
      Json.strings d.productions, .array (d.first.map NamedSet.toJson),
      .array (d.follow.map NamedSet.toJson),
      .array (d.cells.map fun row => .array (row.map (Json.option Json.nat)))])) = .ok d := by
  have hfirst := Scan.sequence_ofJson fun s (_ : s ∈ d.first) => s.read_toJson
  have hfollow := Scan.sequence_ofJson fun s (_ : s ∈ d.follow) => s.read_toJson
  have hcells := Scan.sequence_ofJson fun row (_ : row ∈ d.cells) =>
    Scan.sequence_ofJson fun cell (_ : cell ∈ row) => Scan.countOrNull_option cell
  simp only [read, Scan.ofJson, Scan.ofItems, Scan.record] at hfirst hfollow hcells ⊢
  simp [fields, Scan.positional, Scan.sequence_strings, hfirst, hfollow, hcells, pure, Except.pure,
    bind, Except.bind]

theorem integral_strings (ss : List String) : (Json.strings ss).Integral := by
  refine .array fun v hv => ?_
  obtain ⟨s, -, rfl⟩ := List.mem_map.mp hv
  exact .string s

theorem integral_namedSets (sets : List NamedSet) :
    (Json.array (sets.map NamedSet.toJson)).Integral := by
  refine .array fun v hv => ?_
  obtain ⟨s, -, rfl⟩ := List.mem_map.mp hv
  refine .object fun m hm => ?_
  rcases List.mem_cons.mp hm with rfl | hm
  · exact .string _
  · obtain rfl := List.mem_singleton.mp hm
    exact integral_strings _

/-- Every production index in the cells is one that a document can hold. -/
def Small (d : TableDocument) : Prop := ∀ row ∈ d.cells, ∀ i, some i ∈ row → i < Number.digitLimit

theorem integral_cell {cell : Option Nat} (h : ∀ i ∈ cell, i < Number.digitLimit) :
    (Json.option Json.nat cell).Integral := by
  cases cell with
  | none => exact .null
  | some i =>
    have hi := h i rfl
    exact .number ⟨by omega, Int.ofNat_lt.mpr hi⟩

theorem Small.integral {d : TableDocument} (h : d.Small) : d.toJson.Integral := by
  have hcells : (Json.array (d.cells.map fun row =>
      .array (row.map (Json.option Json.nat)))).Integral := by
    refine .array fun v hv => ?_
    obtain ⟨row, hrow, rfl⟩ := List.mem_map.mp hv
    refine .array fun v hv => ?_
    obtain ⟨cell, hmem, rfl⟩ := List.mem_map.mp hv
    exact integral_cell fun i hi => h row hrow i (hi ▸ hmem)
  refine .object fun m hm => ?_
  simp only [List.mem_cons, List.not_mem_nil, or_false] at hm
  rcases hm with rfl | rfl | rfl | rfl | rfl | rfl
  · exact integral_strings _
  · exact integral_strings _
  · exact integral_strings _
  · exact integral_namedSets _
  · exact integral_namedSets _
  · exact hcells

/-- What is written for a document is read as that document. -/
theorem readDoc_render {d : TableDocument} (h : d.Small) :
    Scan.readDoc read (Doc.ofString d.render) = .ok d := by
  rw [render, Scan.readDoc, Scan.ofDoc_pretty h.integral]
  simp [read_toJson, pure, Except.pure, bind, Except.bind]

/-! ## Compiled tables -/

variable {α : Type} {g : Grammar α} {c : Compiled}

theorem describes_ofCompiled (h : Compiled.ofGrammar g = .ok c) :
    (ofCompiled g c).Describes g c.table where
  terminals := rfl
  nonTerminals := rfl
  productions := rfl
  width := Compiled.terminals_of_ofGrammar h
  rows := rfl
  fits := (Compiled.exact_of_ofGrammar h).table.fits

/-- The indices in a table are those of productions. -/
theorem small_ofCompiled (h : Compiled.ofGrammar g = .ok c)
    (hsize : g.productions.length ≤ Number.digitLimit) : (ofCompiled g c).Small := by
  intro row hrow i hi
  obtain ⟨nt, hnt⟩ := List.mem_iff_getElem?.mp hrow
  obtain ⟨-, hchosen⟩ := Table.fits_iff.mp (describes_ofCompiled h).fits
  obtain ⟨p, hp, -⟩ := hchosen nt row hnt i hi
  obtain ⟨hlt, -⟩ := List.getElem?_eq_some_iff.mp hp
  exact Nat.lt_of_lt_of_le hlt hsize

end TableDocument

/-! ## Saving and loading -/

variable {α : Type} {g : Grammar α} {c : Compiled}

theorem Table.load_eq {d : Doc} {document : TableDocument}
    (h : Scan.readDoc TableDocument.read d = .ok document) : Table.load g d = document.table g := by
  rw [Table.load, h]
  rfl

theorem Compiled.exists_of_map {β : Type} (f : Compiled → β) {b : β}
    (h : (Compiled.ofGrammar g).map f = .ok b) : ∃ c, Compiled.ofGrammar g = .ok c ∧ f c = b :=
  map_eq_ok h

/-- The bytes that a compilation is saved as. -/
def Compiled.saved (g : Grammar α) (c : Compiled) : List UInt8 :=
  (TableDocument.ofCompiled g c).render.toUTF8.data.toList

theorem readDoc_saved (h : Compiled.ofGrammar g = .ok c)
    (hsize : g.productions.length ≤ Number.digitLimit) :
    Scan.readDoc TableDocument.read (Doc.ofBytes (c.saved g)) =
      .ok (TableDocument.ofCompiled g c) := by
  rw [Compiled.saved, Doc.ofBytes_toUTF8]
  exact TableDocument.readDoc_render (TableDocument.small_ofCompiled h hsize)

/-- A compilation is loaded as its table from every document that reads as it was saved. What was
saved does, when its productions can be counted in 64 bits. -/
theorem load_of_saved (h : Compiled.ofGrammar g = .ok c) :
    (∀ d, Scan.readDoc TableDocument.read d = .ok (TableDocument.ofCompiled g c) →
      Table.load g d = .ok c.table) ∧
    (g.productions.length ≤ Number.digitLimit →
      Table.load g (Doc.ofBytes (c.saved g)) = .ok c.table) := by
  have hload : ∀ d, Scan.readDoc TableDocument.read d = .ok (TableDocument.ofCompiled g c) →
      Table.load g d = .ok c.table := by
    intro d hd
    rw [Table.load_eq hd]
    exact (TableDocument.describes_ofCompiled h).table_eq
  exact ⟨hload, fun hsize => hload _ (readDoc_saved h hsize)⟩

/-- Names that occur twice, with blanks, quotes and a character of two bytes. -/
def oddlyNamed : Grammar Unit where
  terminals := ["say \"a\"", "\u00e9", "\u00e9"]
  nonTerminals := ["S", "S"]
  productions := [{ left := 0, right := [.terminal 0, .nonTerminal 1] },
    { left := 1, right := [.terminal 1] }, { left := 1, right := [] }]
  start := 0

theorem load_of_saved_oddlyNamed :
    ∃ c, Compiled.ofGrammar oddlyNamed = .ok c ∧
      c.table.rows = [[some 0, none, none, none], [none, some 1, none, some 2]] ∧
        Table.load oddlyNamed (Doc.ofBytes (c.saved oddlyNamed)) = .ok c.table := by
  obtain ⟨c, h, hrows⟩ := Compiled.exists_of_map (g := oddlyNamed) (fun c => c.table.rows)
    (b := [[some 0, none, none, none], [none, some 1, none, some 2]]) (by decide +kernel)
  exact ⟨c, h, hrows, (load_of_saved h).2 (by decide)⟩

end PredictiveParsing
