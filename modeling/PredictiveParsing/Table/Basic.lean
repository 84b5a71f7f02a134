import PredictiveParsing.Grammar.Basic

/-!
# Predictive tables

A table has a row for each non-terminal and a column for each lookahead: the terminals by index,
then the end mark. A cell may hold the index of a production.
-/

namespace PredictiveParsing

@[ext]
structure Table where
  terminals : Nat
  rows : List (List (Option Nat))
  row_length : ∀ row ∈ rows, row.length = terminals + 1
  deriving DecidableEq

namespace Table

/-- A table without an entry. -/
def blank (nonTerminals terminals : Nat) : Table where
  terminals := terminals
  rows := List.replicate nonTerminals (List.replicate (terminals + 1) none)
  row_length := fun row h => by rw [List.eq_of_mem_replicate h, List.length_replicate]

instance : Inhabited Table := ⟨blank 0 0⟩

def columns (t : Table) : Nat := t.terminals + 1

/-- The column of a lookahead; only the table's terminals and the end mark have one. -/
def column? (t : Table) : Sign → Option Nat
  | .terminal i => if i < t.terminals then some i else none
  | .pound => some t.terminals
  | _ => none

def row? (t : Table) (nt : Nat) : Option (List (Option Nat)) := t.rows[nt]?

def cell? (t : Table) (nt column : Nat) : Option Nat := do
  let row ← t.row? nt
  (row[column]?).join

/-- The production that the table chooses for `nt` when `lookahead` comes next. -/
def get? (t : Table) (nt : Nat) (lookahead : Sign) : Option Nat := do
  t.cell? nt (← t.column? lookahead)

def put (t : Table) (nt column production : Nat) : Table where
  terminals := t.terminals
  rows := t.rows.modify nt fun row => row.set column (some production)
  row_length := fun row h => by
    obtain ⟨i, hi, rfl⟩ := List.mem_iff_getElem.mp h
    have hi' : i < t.rows.length := by simpa using hi
    rw [List.getElem_modify]
    split
    · rw [List.length_set]; exact t.row_length _ (List.getElem_mem hi')
    · exact t.row_length _ (List.getElem_mem hi')

theorem column?_lt {t : Table} {lookahead : Sign} {column : Nat}
    (h : t.column? lookahead = some column) : column < t.columns := by
  unfold column? at h
  split at h
  · split at h
    · cases h; exact Nat.lt_succ_of_lt ‹_›
    · cases h
  · cases h; exact Nat.lt_succ_self _
  · cases h

theorem cell?_blank (nonTerminals terminals nt column : Nat) :
    (blank nonTerminals terminals).cell? nt column = none := by
  simp only [cell?, row?, blank, List.getElem?_replicate]
  split
  · simp only [Option.bind_eq_bind, Option.bind_some, List.getElem?_replicate]
    split <;> rfl
  · rfl

/-- A cell of the table is filled; the others stay as they are. -/
theorem cell?_put {t : Table} {nt column production : Nat} (hn : nt < t.rows.length)
    (hc : column < t.columns) (nt' column' : Nat) :
    (t.put nt column production).cell? nt' column' =
      if nt' = nt ∧ column' = column then some production else t.cell? nt' column' := by
  have hrow : t.rows[nt].length = t.columns := t.row_length _ (List.getElem_mem hn)
  simp only [cell?, row?, put, Option.bind_eq_bind, List.getElem?_modify]
  by_cases h : nt' = nt
  · subst h
    simp only [List.getElem?_eq_getElem hn, Option.map_eq_map, Option.map_some, Option.bind_some,
      if_pos, List.getElem?_set, hrow, hc, true_and]
    by_cases h' : column' = column
    · simp [h']
    · simp [h', Ne.symm h']
  · simp [h, Ne.symm h]

def filled (t : Table) : Nat := t.rows.flatten.countP Option.isSome

end Table

end PredictiveParsing
