import PredictiveParsing.Table.Basic

/-!
# A table as one list of cells

The rows of a table one behind the other, with the cell of a row and a column at
`row * columns + column`. Blank tables, looking up a cell, filling one and counting those that are
filled are in one list what they are in rows.
-/

namespace PredictiveParsing

section Rows

variable {β : Type} {rows : List (List β)} {width : Nat}

theorem getElem?_flatten_of_length (h : ∀ row ∈ rows, row.length = width) (n : Nat) {column : Nat}
    (hc : column < width) :
    rows.flatten[n * width + column]? = rows[n]?.bind fun row => row[column]? := by
  induction rows generalizing n with
  | nil => rfl
  | cons row rest ih =>
    obtain ⟨hrow, hrest⟩ := List.forall_mem_cons.mp h
    rw [List.flatten_cons]
    cases n with
    | zero =>
      rw [Nat.zero_mul, Nat.zero_add, List.getElem?_append_left (hrow.symm ▸ hc)]
      rfl
    | succ n =>
      have hindex : (n + 1) * width + column = row.length + (n * width + column) := by
        rw [hrow, Nat.succ_mul]
        omega
      rw [hindex, List.getElem?_append_right (Nat.le_add_right _ _), Nat.add_sub_cancel_left,
        ih hrest n]
      rfl

theorem flatten_modify_set (h : ∀ row ∈ rows, row.length = width) (n : Nat) {column : Nat}
    (hc : column < width) (b : β) :
    (rows.modify n fun row => row.set column b).flatten =
      rows.flatten.set (n * width + column) b := by
  induction rows generalizing n with
  | nil => simp
  | cons row rest ih =>
    obtain ⟨hrow, hrest⟩ := List.forall_mem_cons.mp h
    cases n with
    | zero =>
      rw [List.modify_zero_cons, List.flatten_cons, List.flatten_cons, Nat.zero_mul, Nat.zero_add,
        List.set_append_left _ _ (hrow.symm ▸ hc)]
    | succ n =>
      have hindex : (n + 1) * width + column = row.length + (n * width + column) := by
        rw [hrow, Nat.succ_mul]
        omega
      rw [List.modify_succ_cons, List.flatten_cons, List.flatten_cons, hindex,
        List.set_append_right _ _ (Nat.le_add_right _ _), Nat.add_sub_cancel_left, ih hrest n]

end Rows

namespace Table

/-- All cells, row after row. -/
def flat (t : Table) : List (Option Nat) := t.rows.flatten

theorem flat_blank (nonTerminals terminals : Nat) :
    (blank nonTerminals terminals).flat =
      List.replicate (nonTerminals * (terminals + 1)) none := by
  rw [flat, blank, List.flatten_replicate_replicate]

theorem length_flat (t : Table) : t.flat.length = t.rows.length * t.columns := by
  have hlength : ∀ n ∈ t.rows.map List.length, n = t.columns := by
    rintro n hn
    obtain ⟨row, hrow, rfl⟩ := List.mem_map.mp hn
    exact t.row_length row hrow
  rw [flat, List.length_flatten, List.eq_replicate_of_mem hlength, List.sum_replicate_nat,
    List.length_map]

/-- Looking a cell up, with the bounds that keep the index within its row. -/
theorem cell?_eq_flat (t : Table) (nt column : Nat) :
    t.cell? nt column =
      if nt < t.rows.length ∧ column < t.columns then t.flat[nt * t.columns + column]?.join
      else none := by
  have hcell : t.cell? nt column = (t.rows[nt]?.bind fun row => row[column]?).join := by
    rw [cell?, row?]
    cases t.rows[nt]? <;> rfl
  by_cases hc : column < t.columns
  · have hflat : t.flat[nt * t.columns + column]? = _ :=
      getElem?_flatten_of_length t.row_length nt hc
    by_cases hn : nt < t.rows.length
    · rw [if_pos ⟨hn, hc⟩, hflat, hcell]
    · rw [if_neg fun h => hn h.1, hcell, List.getElem?_eq_none (Nat.le_of_not_lt hn)]
      rfl
  · rw [if_neg fun h => hc h.2, hcell]
    cases hrow : t.rows[nt]? with
    | none => rfl
    | some row =>
      have hlength : row.length = t.columns := t.row_length row (List.mem_of_getElem? hrow)
      rw [Option.bind_some, List.getElem?_eq_none (hlength ▸ Nat.le_of_not_lt hc)]
      rfl

theorem flat_put (t : Table) (nt : Nat) {column : Nat} (hc : column < t.columns) (i : Nat) :
    (t.put nt column i).flat = t.flat.set (nt * t.columns + column) (some i) :=
  flatten_modify_set t.row_length nt hc (some i)

theorem filled_eq_countP_flat (t : Table) : t.filled = t.flat.countP Option.isSome := rfl

end Table

end PredictiveParsing
