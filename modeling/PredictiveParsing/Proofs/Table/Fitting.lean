import PredictiveParsing.Proofs.Table.Exact
import PredictiveParsing.Table.Document

/-!
# Tables that fit a grammar

A table fits a grammar when every cell that is filled holds a production of its row's non-terminal.
Nothing says that the cell's lookahead has anything to do with that production.

* `Exact.fits`: a compiled table fits;
* `TableDocument.fillRows_eq_ok_iff`: filling goes through when every row is as long as it must be and
  holds productions of its own, and leaves the rows of the document in a table that was blank there;
* `TableDocument.table_eq_ok_iff`: a document is loaded for a grammar as the table that it describes,
  when there is one;
* `fits_of_load`: a table that was read from a document fits, whatever is in its cells;
* `TableDocument.loads_exactly_valid`: the loader refuses no valid document and accepts no other,
  and the loaded table has the document's cells in their places.
-/

namespace PredictiveParsing

variable {α : Type} {g : Grammar α}

/-- A row for each non-terminal, and in it productions of that non-terminal only. -/
structure Table.Fits (g : Grammar α) (t : Table) : Prop where
  rows_length : t.rows.length = g.nonTerminals.length
  chosen : ∀ nt x i, t.get? nt x = some i → ∃ p, g.productions[i]? = some p ∧ p.left = nt

theorem Table.Exact.fits {t : Table} (h : t.Exact g) : t.Fits g := by
  refine ⟨h.rows_length, fun nt x i hi => ?_⟩
  obtain ⟨p, hp, hleft, -⟩ := h.claimed nt x i hi
  exact ⟨p, hp, hleft⟩

/-! ## Cells -/

theorem Table.exists_mem_of_get? {t : Table} {nt i : Nat} {x : Sign} (h : t.get? nt x = some i) :
    ∃ cells, t.rows[nt]? = some cells ∧ some i ∈ cells := by
  obtain ⟨column, -, hcell⟩ := Option.bind_eq_some_iff.mp h
  obtain ⟨cells, hcells, hi⟩ := Option.bind_eq_some_iff.mp hcell
  exact ⟨cells, hcells, List.mem_of_getElem? (Option.join_eq_some_iff.mp hi)⟩

/-- Every column of a table belongs to a lookahead. -/
theorem Table.exists_get?_of_mem {t : Table} {nt i : Nat} {cells : List (Option Nat)}
    (hcells : t.rows[nt]? = some cells) (hi : some i ∈ cells) : ∃ x, t.get? nt x = some i := by
  obtain ⟨column, hcolumn, hcell⟩ := List.mem_iff_getElem.mp hi
  have hlength : cells.length = t.terminals + 1 := t.row_length _ (List.mem_of_getElem? hcells)
  have hlookahead : ∃ x, t.column? x = some column := by
    rcases Nat.lt_or_ge column t.terminals with hlt | hge
    · exact ⟨.terminal column, if_pos hlt⟩
    · obtain rfl : column = t.terminals := by omega
      exact ⟨.pound, rfl⟩
  obtain ⟨x, hx⟩ := hlookahead
  have hget : cells[column]? = some (some i) := by rw [List.getElem?_eq_getElem hcolumn, hcell]
  exact ⟨x, by simp [get?_eq hx, cell?, row?, hcells, hget]⟩

theorem Table.get?_terminal {t : Table} {nt : Nat} {cells : List (Option Nat)}
    (hcells : t.rows[nt]? = some cells) {i : Nat} (hi : i < t.terminals) :
    t.get? nt (.terminal i) = cells[i]?.join := by
  have hcolumn : t.column? (.terminal i) = some i := if_pos hi
  simp [get?_eq hcolumn, cell?, row?, hcells]

theorem Table.get?_pound {t : Table} {nt : Nat} {cells : List (Option Nat)}
    (hcells : t.rows[nt]? = some cells) : t.get? nt .pound = cells.getLast?.join := by
  have hcolumn : t.column? .pound = some t.terminals := rfl
  have hlength : cells.length = t.terminals + 1 := t.row_length _ (List.mem_of_getElem? hcells)
  simp [get?_eq hcolumn, cell?, row?, hcells, List.getLast?_eq_getElem?, hlength]

theorem Table.fits_iff {t : Table} :
    t.Fits g ↔ t.rows.length = g.nonTerminals.length ∧
      ∀ (nt : Nat) (cells : List (Option Nat)), t.rows[nt]? = some cells →
        ∀ i, some i ∈ cells → ∃ p, g.productions[i]? = some p ∧ p.left = nt := by
  constructor
  · intro h
    refine ⟨h.rows_length, fun nt cells hcells i hi => ?_⟩
    obtain ⟨x, hx⟩ := exists_get?_of_mem hcells hi
    exact h.chosen nt x i hx
  · rintro ⟨hlength, hchosen⟩
    refine ⟨hlength, fun nt x i hi => ?_⟩
    obtain ⟨cells, hcells, hmem⟩ := exists_mem_of_get? hi
    exact hchosen nt cells hcells i hmem

/-! ## Filling a table -/

namespace Table

/-- What filling a row from a column on puts into the table, whatever is checked on the way. -/
def putCells (t : Table) (row : Nat) : Nat → List (Option Nat) → Table
  | _, [] => t
  | column, none :: cells => t.putCells row (column + 1) cells
  | column, some i :: cells => (t.put row column i).putCells row (column + 1) cells

def putRows (t : Table) : Nat → List (List (Option Nat)) → Table
  | _, [] => t
  | row, cells :: rest => (t.putCells row 0 cells).putRows (row + 1) rest

@[simp] theorem terminals_putCells (t : Table) (row column : Nat) (cells : List (Option Nat)) :
    (t.putCells row column cells).terminals = t.terminals := by
  induction cells generalizing t column with
  | nil => rfl
  | cons cell cells ih =>
    cases cell with
    | none => exact ih t (column + 1)
    | some i => exact ih (t.put row column i) (column + 1)

theorem columns_putCells (t : Table) (row column : Nat) (cells : List (Option Nat)) :
    (t.putCells row column cells).columns = t.columns := by
  rw [columns, terminals_putCells, columns]

@[simp] theorem terminals_putRows (t : Table) (row : Nat) (rows : List (List (Option Nat))) :
    (t.putRows row rows).terminals = t.terminals := by
  induction rows generalizing t row with
  | nil => rfl
  | cons cells rest ih => rw [putRows, ih, terminals_putCells]

theorem modify_length_append {β : Type} (above below : List β) (b : β) (f : β → β) :
    (above ++ b :: below).modify above.length f = above ++ f b :: below := by
  induction above with
  | nil => rfl
  | cons a above ih => rw [List.cons_append, List.length_cons, List.modify_succ_cons, ih]; rfl

/-- A row that is filled up to a column and blank behind it takes the other cells there. -/
theorem rows_putCells {t : Table} {above below : List (List (Option Nat))}
    {left cells : List (Option Nat)}
    (h : t.rows = above ++ (left ++ List.replicate cells.length none) :: below) :
    (t.putCells above.length left.length cells).rows = above ++ (left ++ cells) :: below := by
  induction cells generalizing t left with
  | nil => exact h
  | cons cell cells ih =>
    -- the cell is the first of the blank ones, and then the last of those that are filled
    have hnext : left ++ cell :: cells = (left ++ [cell]) ++ cells := by simp
    have hcolumn : left.length + 1 = (left ++ [cell]).length := by simp
    rw [hnext]
    cases cell with
    | none =>
      rw [putCells, hcolumn]
      refine ih ?_
      rw [h, List.append_assoc]
      rfl
    | some i =>
      rw [putCells, hcolumn]
      refine ih ?_
      have hput : (t.put above.length left.length i).rows =
          t.rows.modify above.length fun row => row.set left.length (some i) := rfl
      rw [hput, h, modify_length_append, List.length_cons, List.replicate_succ,
        List.set_append_right _ _ (Nat.le_refl _), Nat.sub_self, List.set_cons_zero,
        List.append_assoc]
      rfl

/-- Rows as long as the table is wide replace as many blank ones. -/
theorem rows_putRows {t : Table} {above rows : List (List (Option Nat))}
    (h : t.rows = above ++ List.replicate rows.length (List.replicate t.columns none))
    (hrows : ∀ cells ∈ rows, cells.length = t.columns) :
    (t.putRows above.length rows).rows = above ++ rows := by
  induction rows generalizing t above with
  | nil => exact h
  | cons cells rest ih =>
    obtain ⟨hcells, hrest⟩ := List.forall_mem_cons.mp hrows
    have hfilled : (t.putCells above.length 0 cells).rows = above ++ cells ::
        List.replicate rest.length (List.replicate t.columns none) := by
      refine @rows_putCells t above _ [] cells ?_
      rw [h, hcells]
      rfl
    have hrow : above.length + 1 = (above ++ [cells]).length := by simp
    have hnext : above ++ cells :: rest = (above ++ [cells]) ++ rest := by simp
    rw [putRows, hrow, hnext]
    refine ih ?_ ?_
    · rw [hfilled, List.append_assoc, columns_putCells]
      rfl
    · rwa [columns_putCells]

theorem rows_putRows_blank {terminals : Nat} {rows : List (List (Option Nat))}
    (h : ∀ cells ∈ rows, cells.length = terminals + 1) :
    ((blank rows.length terminals).putRows 0 rows).rows = rows :=
  @rows_putRows (blank rows.length terminals) [] rows rfl h

end Table

/-! ## Documents -/

namespace TableDocument

theorem fillCells_eq_ok_iff {t t' : Table} {row column : Nat} {cells : List (Option Nat)} :
    fillCells g row column cells t = .ok t' ↔
      (∀ i, some i ∈ cells → ∃ p, g.productions[i]? = some p ∧ p.left = row) ∧
        t' = t.putCells row column cells := by
  induction cells generalizing t column with
  | nil => simp [fillCells, Table.putCells, eq_comm]
  | cons cell cells ih =>
    cases cell with
    | none => simp [fillCells, Table.putCells, ih]
    | some i =>
      rw [fillCells]
      cases hp : g.productions[i]? with
      | none => simp [hp]
      | some p =>
        by_cases hleft : p.left = row
        · simp [hleft, ih, hp, Table.putCells]
        · simp [hleft, hp]

theorem forall_getElem?_cons {β : Type} {P : Nat → β → Prop} {b : β} {bs : List β} :
    (∀ k c, (b :: bs)[k]? = some c → P k c) ↔ P 0 b ∧ ∀ k c, bs[k]? = some c → P (k + 1) c := by
  constructor
  · intro h
    exact ⟨h 0 b rfl, fun k c hk => h (k + 1) c hk⟩
  · rintro ⟨hfirst, hrest⟩ (_ | k) c hk
    · cases hk
      exact hfirst
    · exact hrest k c hk

theorem fillRows_eq_ok_iff {t t' : Table} {row : Nat} {rows : List (List (Option Nat))} :
    fillRows g row rows t = .ok t' ↔
      (∀ k cells, rows[k]? = some cells → cells.length = t.columns ∧
        ∀ i, some i ∈ cells → ∃ p, g.productions[i]? = some p ∧ p.left = row + k) ∧
      t' = t.putRows row rows := by
  induction rows generalizing t row with
  | nil => simp [fillRows, Table.putRows, eq_comm]
  | cons cells rest ih =>
    have hnext : ∀ k, row + 1 + k = row + (k + 1) := fun k => by omega
    rw [forall_getElem?_cons, fillRows, Nat.add_zero]
    by_cases hlength : cells.length = t.columns
    · rw [if_pos hlength, bind_eq_ok]
      simp only [fillCells_eq_ok_iff, ih, hnext]
      constructor
      · rintro ⟨filled, ⟨hcells, rfl⟩, hrest, rfl⟩
        rw [Table.columns_putCells] at hrest
        exact ⟨⟨⟨hlength, hcells⟩, hrest⟩, rfl⟩
      · rintro ⟨⟨⟨-, hcells⟩, hrest⟩, rfl⟩
        rw [← Table.columns_putCells t row 0 cells] at hrest
        exact ⟨_, ⟨hcells, rfl⟩, hrest, rfl⟩
    · simp [hlength]

theorem checkProductions_eq_ok_iff (index : Nat) {ps : List (Production α)} {texts : List String}
    (hlength : texts.length = ps.length) :
    checkProductions g index ps texts = .ok () ↔ texts = ps.map g.textOf := by
  induction ps generalizing index texts with
  | nil => simpa [checkProductions] using hlength
  | cons p ps ih =>
    cases texts with
    | nil => simp at hlength
    | cons text texts =>
      have hrest := ih (index + 1) (Nat.succ.inj hlength)
      rw [checkProductions, List.map_cons, List.cons.injEq]
      by_cases htext : text = g.textOf p
      · simp [htext, hrest]
      · simp [htext]

/-- The document is about signs and productions of these names, and its cells are the table's. -/
structure Describes (d : TableDocument) (g : Grammar α) (t : Table) : Prop where
  terminals : d.terminals = g.terminals
  nonTerminals : d.nonTerminals = g.nonTerminals
  productions : d.productions = g.productions.map g.textOf
  width : t.terminals = g.terminals.length
  rows : t.rows = d.cells
  fits : t.Fits g

theorem describes_of_table {d : TableDocument} {t : Table} (h : d.table g = .ok t) :
    d.Describes g t := by
  have hterminals : d.terminals = g.terminals := by
    by_contra hne
    simp [table, hne] at h
  have hnonTerminals : d.nonTerminals = g.nonTerminals := by
    by_contra hne
    simp [table, hterminals, hne] at h
  have hcount : d.productions.length = g.productions.length := by
    by_contra hne
    simp [table, hterminals, hnonTerminals, hne] at h
  simp only [table, hterminals, hnonTerminals, hcount, ne_eq, not_true_eq_false, if_false] at h
  split at h
  next => cases h
  next htexts =>
    split at h
    next => cases h
    next hrows =>
      have hrowCount : d.cells.length = g.nonTerminals.length := by simpa [Table.blank] using hrows
      rw [← hrowCount] at h
      obtain ⟨hfilled, rfl⟩ := fillRows_eq_ok_iff.mp h
      have hlength : ∀ cells ∈ d.cells, cells.length = g.terminals.length + 1 := by
        intro cells hmem
        obtain ⟨k, hk⟩ := List.mem_iff_getElem?.mp hmem
        exact (hfilled k cells hk).1
      have hcells := Table.rows_putRows_blank hlength
      refine ⟨hterminals, hnonTerminals, (checkProductions_eq_ok_iff 0 hcount).mp htexts,
        Table.terminals_putRows .., hcells, Table.fits_iff.mpr ?_⟩
      rw [hcells]
      refine ⟨hrowCount, fun nt cells hnt => ?_⟩
      have hchosen := (hfilled nt cells hnt).2
      rwa [Nat.zero_add] at hchosen

theorem Describes.table_eq {d : TableDocument} {t : Table} (h : d.Describes g t) :
    d.table g = .ok t := by
  have hcount : d.productions.length = g.productions.length := by rw [h.productions, List.length_map]
  have htexts := (checkProductions_eq_ok_iff (g := g) 0 hcount).mpr h.productions
  obtain ⟨hlength, hchosen⟩ := Table.fits_iff.mp h.fits
  have hwide : ∀ cells ∈ d.cells, cells.length = g.terminals.length + 1 := by
    rw [← h.rows, ← h.width]
    exact t.row_length
  rw [h.rows] at hlength hchosen
  have hfill : fillRows g 0 d.cells (Table.blank d.cells.length g.terminals.length) = .ok t := by
    refine fillRows_eq_ok_iff.mpr ⟨fun nt cells hcells => ?_, ?_⟩
    · rw [Nat.zero_add]
      exact ⟨hwide cells (List.mem_of_getElem? hcells), hchosen nt cells hcells⟩
    · refine Table.ext ?_ ?_
      · rw [Table.terminals_putRows]
        exact h.width
      · rw [Table.rows_putRows_blank hwide]
        exact h.rows
  have hrowCount : (Table.blank g.nonTerminals.length g.terminals.length).rows.length =
      g.nonTerminals.length := List.length_replicate
  rw [hlength] at hfill
  rw [table, if_neg (not_not.mpr h.terminals), if_neg (not_not.mpr h.nonTerminals),
    if_neg (not_not.mpr hcount), htexts, h.terminals, h.nonTerminals]
  simpa [hrowCount, hlength] using hfill

theorem table_eq_ok_iff {d : TableDocument} {t : Table} :
    d.table g = .ok t ↔ d.Describes g t :=
  ⟨describes_of_table, Describes.table_eq⟩

end TableDocument

/-- What is loaded is what some document describes. -/
theorem Table.describes_of_load {d : Doc} {t : Table} (h : Table.load g d = .ok t) :
    ∃ document, Scan.readDoc TableDocument.read d = .ok document ∧ document.Describes g t := by
  rw [Table.load] at h
  cases hd : Scan.readDoc TableDocument.read d with
  | error fault =>
    rw [hd] at h
    cases h
  | ok document =>
    rw [hd] at h
    exact ⟨document, rfl, TableDocument.describes_of_table h⟩

/-- No document is loaded whose table does not fit. -/
theorem Table.fits_of_load {d : Doc} {t : Table} (h : Table.load g d = .ok t) : t.Fits g := by
  obtain ⟨document, -, hdescribes⟩ := describes_of_load h
  exact hdescribes.fits

/-! ## Valid documents -/

namespace TableDocument

variable {d : TableDocument} {t : Table}

/-- The names and texts are the grammar's, and each non-terminal has a row with a cell for each
terminal and one more, every one of them empty or with a production of the non-terminal. -/
structure ValidFor (d : TableDocument) (g : Grammar α) : Prop where
  terminals : d.terminals = g.terminals
  nonTerminals : d.nonTerminals = g.nonTerminals
  productions : d.productions = g.productions.map g.textOf
  rows : d.cells.length = g.nonTerminals.length
  columns : ∀ cells ∈ d.cells, cells.length = g.terminals.length + 1
  entries : ∀ (nt : Nat) (cells : List (Option Nat)), d.cells[nt]? = some cells →
    ∀ i, some i ∈ cells → ∃ p, g.productions[i]? = some p ∧ p.left = nt

theorem Describes.validFor (h : d.Describes g t) : d.ValidFor g := by
  obtain ⟨hrows, hentries⟩ := Table.fits_iff.mp h.fits
  rw [h.rows] at hrows hentries
  refine ⟨h.terminals, h.nonTerminals, h.productions, hrows, fun cells hcells => ?_, hentries⟩
  rw [← h.rows] at hcells
  rw [← h.width]
  exact t.row_length cells hcells

theorem ValidFor.exists_describes (h : d.ValidFor g) : ∃ t, d.Describes g t := by
  let t : Table := ⟨g.terminals.length, d.cells, h.columns⟩
  have hfits : t.Fits g := Table.fits_iff.mpr ⟨h.rows, h.entries⟩
  exact ⟨t, h.terminals, h.nonTerminals, h.productions, rfl, rfl, hfits⟩

theorem exists_table_eq_ok_iff : (∃ t, d.table g = .ok t) ↔ d.ValidFor g := by
  constructor
  · rintro ⟨t, ht⟩
    exact (describes_of_table ht).validFor
  · intro h
    obtain ⟨t, ht⟩ := h.exists_describes
    exact ⟨t, ht.table_eq⟩

/-- The cells of a row are those of the lookaheads, with the one for the end behind the others. -/
theorem Describes.get?_row (h : d.Describes g t) {nt : Nat} {cells : List (Option Nat)}
    (hcells : d.cells[nt]? = some cells) :
    (∀ i < g.terminals.length, t.get? nt (.terminal i) = cells[i]?.join) ∧
      t.get? nt .pound = cells.getLast?.join := by
  rw [← h.rows] at hcells
  rw [← h.width]
  exact ⟨fun i hi => Table.get?_terminal hcells hi, Table.get?_pound hcells⟩

/-- A table has nothing but what it has for the non-terminals and lookaheads of the grammar. -/
theorem Describes.covers (h : d.Describes g t) {nt i : Nat} {x : Sign}
    (hget : t.get? nt x = some i) :
    nt < g.nonTerminals.length ∧ (x = .pound ∨ ∃ k < g.terminals.length, x = .terminal k) := by
  obtain ⟨cells, hcells, -⟩ := Table.exists_mem_of_get? hget
  obtain ⟨column, hcolumn, -⟩ := Option.bind_eq_some_iff.mp hget
  constructor
  · rw [← h.fits.rows_length]
    exact (List.getElem?_eq_some_iff.mp hcells).1
  · cases x with
    | pound => exact .inl rfl
    | terminal k =>
      rw [← h.width]
      by_cases hk : k < t.terminals
      · exact .inr ⟨k, hk, rfl⟩
      · simp [Table.column?, hk] at hcolumn
    | _ => cases hcolumn

/-- A document is loaded for a grammar just when it is valid for it. The cells of the loaded table
are those of the document, each in its place, and the sections with the lookahead sets are not
consulted. -/
theorem loads_exactly_valid (g : Grammar α) (d : TableDocument) :
    ((∃ t, d.table g = .ok t) ↔ d.ValidFor g) ∧
    (∀ t, d.table g = .ok t →
      (∀ (nt : Nat) (cells : List (Option Nat)), d.cells[nt]? = some cells →
        (∀ i < g.terminals.length, t.get? nt (.terminal i) = cells[i]?.join) ∧
          t.get? nt .pound = cells.getLast?.join) ∧
      ∀ nt x i, t.get? nt x = some i →
        nt < g.nonTerminals.length ∧ (x = .pound ∨ ∃ k < g.terminals.length, x = .terminal k)) ∧
    ∀ first follow, { d with first := first, follow := follow }.table g = d.table g := by
  refine ⟨exists_table_eq_ok_iff, fun t ht => ?_, fun first follow => rfl⟩
  have hdescribes : d.Describes g t := describes_of_table ht
  constructor
  · intro nt cells hcells
    exact hdescribes.get?_row hcells
  · intro nt x i hget
    exact hdescribes.covers hget

end TableDocument

end PredictiveParsing
