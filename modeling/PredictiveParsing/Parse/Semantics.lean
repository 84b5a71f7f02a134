import PredictiveParsing.Failure
import PredictiveParsing.Symbols.Pool
import PredictiveParsing.Tree.Basic

/-!
# Actions

Productions carry actions of some type `α`; a semantics says what running one at a node does to the
tree and the symbol pool, and whether it fails. What a failing action changed stays changed. An
action for which the semantics has no effect is passed over.
-/

namespace PredictiveParsing

/-- What actions read and write. -/
structure Workspace where
  tree : Tree
  pool : Pool
  deriving DecidableEq, Repr, Inhabited

abbrev Effect := Workspace → Except Failure Unit × Workspace

abbrev Semantics (α : Type) := α → Nat → Option Effect

/-- No action does anything. -/
def Semantics.none {α : Type} : Semantics α := fun _ _ => Option.none

end PredictiveParsing
