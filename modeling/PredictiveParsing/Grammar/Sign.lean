/-!
# Signs

A sign is a terminal or a non-terminal, given by its index in an alphabet, or the empty word, or
the end mark. Signs come in the order terminals, non-terminals, empty word, end mark, and inside an
alphabet by index; wherever a set of signs is listed, it is listed in this order.
-/

namespace PredictiveParsing

inductive Sign where
  | terminal (index : Nat)
  | nonTerminal (index : Nat)
  | empty
  | pound
  deriving DecidableEq, Repr, Inhabited

namespace Sign

def isTerminal : Sign → Bool
  | terminal _ => true
  | _ => false

def isNonTerminal : Sign → Bool
  | nonTerminal _ => true
  | _ => false

def isEmpty : Sign → Bool
  | empty => true
  | _ => false

/-- The sign with its index, as a fault about it spells it. -/
def spelling : Sign → String
  | terminal i => s!"Terminal({i})"
  | nonTerminal i => s!"NonTerminal({i})"
  | empty => "Empty"
  | pound => "Pound"

/-! ## The order of signs -/

def rank : Sign → Nat
  | terminal _ => 0
  | nonTerminal _ => 1
  | empty => 2
  | pound => 3

def index : Sign → Nat
  | terminal i => i
  | nonTerminal i => i
  | _ => 0

instance : LT Sign := ⟨fun a b => a.rank < b.rank ∨ a.rank = b.rank ∧ a.index < b.index⟩

theorem lt_iff {a b : Sign} : a < b ↔ a.rank < b.rank ∨ a.rank = b.rank ∧ a.index < b.index :=
  Iff.rfl

instance (a b : Sign) : Decidable (a < b) := decidable_of_iff _ lt_iff.symm

theorem lt_irrefl (a : Sign) : ¬ a < a := by
  simp [lt_iff]

theorem lt_trans {a b c : Sign} (hab : a < b) (hbc : b < c) : a < c := by
  rw [lt_iff] at *
  omega

theorem eq_of_rank_index {a b : Sign} (hr : a.rank = b.rank) (hi : a.index = b.index) : a = b := by
  cases a <;> cases b <;> simp_all [rank, index]

theorem lt_or_lt_of_ne {a b : Sign} (h : a ≠ b) : a < b ∨ b < a := by
  have hne : ¬ (a.rank = b.rank ∧ a.index = b.index) := fun e => h (eq_of_rank_index e.1 e.2)
  rw [lt_iff, lt_iff]
  omega

end Sign

end PredictiveParsing
