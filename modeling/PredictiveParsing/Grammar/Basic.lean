import PredictiveParsing.Grammar.Fault

/-!
# Grammars

A grammar has two alphabets of names, productions over indices into them, and a start symbol. A
production carries actions of some type `α`: one before its node has children, one after the last
child is finished, and a slot in front of each child.

A grammar may be put together from any parts; `validate` says whether its indices fit.
-/

namespace PredictiveParsing

structure Production (α : Type) where
  left : Nat
  right : List Sign
  opening : Option α := none
  closing : Option α := none
  /-- `slots[i]` belongs right before the sign `right[i]`. -/
  slots : List (Option α) := right.map fun _ => none
  deriving DecidableEq, Repr

/-- The same left side and right side, whatever the actions. -/
def Production.SameShape {α : Type} (p q : Production α) : Prop := p.left = q.left ∧ p.right = q.right

instance {α : Type} (p q : Production α) : Decidable (p.SameShape q) := inferInstanceAs (Decidable (_ ∧ _))

structure Grammar (α : Type) where
  terminals : List String
  nonTerminals : List String
  productions : List (Production α)
  start : Nat
  deriving DecidableEq, Repr

namespace Grammar

variable {α : Type}

/-! ## Names -/

/-- The last place of `name`, where a name that occurs twice is looked up. -/
def lastIndexOf (name : String) : List String → Option Nat
  | [] => none
  | n :: ns =>
    match lastIndexOf name ns with
    | some i => some (i + 1)
    | none => if n = name then some 0 else none

def terminal (g : Grammar α) (name : String) : Option Sign :=
  (lastIndexOf name g.terminals).map .terminal

def nonTerminal (g : Grammar α) (name : String) : Option Sign :=
  (lastIndexOf name g.nonTerminals).map .nonTerminal

def nameOf (g : Grammar α) : Sign → String
  | .terminal i => (g.terminals[i]?).getD "<bad terminal>"
  | .nonTerminal i => (g.nonTerminals[i]?).getD "<bad non-terminal>"
  | .empty => "empty"
  | .pound => "#"

/-- `left -> a b c`, or `left -> empty` for an empty right side. -/
def textOf (g : Grammar α) (p : Production α) : String :=
  let names := if p.right = [] then ["empty"] else p.right.map g.nameOf
  g.nameOf (.nonTerminal p.left) ++ " -> " ++ " ".intercalate names

theorem lastIndexOf_lt {name : String} {ns : List String} {i : Nat}
    (h : lastIndexOf name ns = some i) : i < ns.length ∧ ns[i]? = some name := by
  induction ns generalizing i with
  | nil => simp [lastIndexOf] at h
  | cons n ns ih =>
    simp only [lastIndexOf] at h
    split at h
    next j hj =>
      cases h
      obtain ⟨hl, he⟩ := ih hj
      exact ⟨by simpa using hl, by simpa using he⟩
    next =>
      split at h
      next e => cases h; simp [e]
      next => cases h

/-! ## Productions -/

/-- The productions of non-terminal `nt`, with their indices. -/
def productionsOf (g : Grammar α) (nt : Nat) : List (Production α × Nat) :=
  g.productions.zipIdx.filter fun (p, _) => p.left == nt

/-! ## Indices that fit -/

def fits (g : Grammar α) : Sign → Bool
  | .terminal i => decide (i < g.terminals.length)
  | .nonTerminal i => decide (i < g.nonTerminals.length)
  | .empty => false
  | .pound => false

/-- Every sign of `signs` fits, or the first that does not is at fault. -/
def checkSigns (g : Grammar α) : List Sign → Except GrammarFault Unit
  | [] => .ok ()
  | s :: ss => if g.fits s then checkSigns g ss else .error (.misplaced s)

def checkProductions (g : Grammar α) : List (Production α) → Except GrammarFault Unit
  | [] => .ok ()
  | p :: ps => do
    checkSigns g [.nonTerminal p.left]
    checkSigns g p.right
    checkProductions g ps

/-- The start symbol and every sign of every production fit the alphabets. -/
def validate (g : Grammar α) : Except GrammarFault Unit :=
  if g.start < g.nonTerminals.length then checkProductions g g.productions
  else .error (.startOutOfRange g.start)

end Grammar

end PredictiveParsing
