import PredictiveParsing.Lookahead.First

/-!
# Follow sets

What can stand right after a non-terminal. The end mark follows the start symbol once one of its
productions is visited. At each non-terminal of a right side, the first set of the whole rest of the
side follows it; when that rest can vanish, so does everything that follows the left side. A left
side does not inherit from itself.
-/

namespace PredictiveParsing.Follow

variable {α : Type}

/-- Everything that follows `left` follows `n` too. -/
def inherit (left n : Nat) (sets : Family) : Except GrammarFault Family := do
  if n = left then return sets
  sets.join n (← sets.at? left)

/-- The non-terminal `n`, with `rest` after it on a right side of `left`. -/
def visitSign (firsts : Family) (left n : Nat) (rest : List Sign) (sets : Family) :
    Except GrammarFault Family := do
  if rest = [] then inherit left n sets
  else
    let first ← firstOf firsts rest
    let sets ← sets.join n first.withoutEmpty
    if .empty ∈ first then inherit left n sets else return sets

def visitSigns (firsts : Family) (left : Nat) : List Sign → Family → Except GrammarFault Family
  | [], sets => .ok sets
  | .terminal _ :: rest, sets => visitSigns firsts left rest sets
  | .nonTerminal n :: rest, sets => do
    visitSigns firsts left rest (← visitSign firsts left n rest sets)
  | s :: _, _ => .error (.misplaced s)

def visit (g : Grammar α) (firsts : Family) (sets : Family) (p : Production α) :
    Except GrammarFault Family := do
  let sets ← if p.left = g.start then sets.join p.left (.singleton .pound) else pure sets
  visitSigns firsts p.left p.right sets

def pass (g : Grammar α) (firsts : Family) (sets : Family) : Except GrammarFault Family :=
  g.productions.foldlM (visit g firsts) sets

/-- The follow sets over the given first sets, and the number of passes they took. -/
def compute (g : Grammar α) (firsts : Family) : Except GrammarFault (Family × Nat) :=
  Family.settle (pass g firsts) (Family.passBound g) (Family.blank g.nonTerminals.length)

end PredictiveParsing.Follow
