import PredictiveParsing.Grammar.Basic
import PredictiveParsing.Lookahead.SignSet

/-!
# First sets

A family holds one set per non-terminal, by index. `firstOf` reads the first set of a sign sequence
off a family; a pass over the productions puts the first set of every right side into the family,
each production seeing what the earlier ones put in; `First.compute` repeats passes until one
changes nothing.
-/

namespace PredictiveParsing

abbrev Family := List SignSet

namespace Family

def blank (size : Nat) : Family := List.replicate size ∅

def at? (sets : Family) (nt : Nat) : Except GrammarFault SignSet :=
  match sets[nt]? with
  | some A => .ok A
  | none => .error (.misplaced (.nonTerminal nt))

/-- Put the members of `A` into the set of `nt`. -/
def join (sets : Family) (nt : Nat) (A : SignSet) : Except GrammarFault Family := do
  let old ← sets.at? nt
  return sets.set nt (old ∪ A)

/-- Repeat `pass` until it changes nothing, at most `bound` times; also the number of passes made. -/
def settle (pass : Family → Except GrammarFault Family) :
    Nat → Family → Except GrammarFault (Family × Nat)
  | 0, sets => .ok (sets, 0)
  | bound + 1, sets => do
    let next ← pass sets
    if next = sets then return (next, 1)
    let (settled, passes) ← settle pass bound next
    return (settled, passes + 1)

/-- As many passes as a family can grow in, a set holding at most the terminals and one more sign,
and the pass that finds nothing to do. -/
def passBound {α : Type} (g : Grammar α) : Nat :=
  g.nonTerminals.length * (g.terminals.length + 1) + 1

end Family

/-- The first set of a sequence under the given sets. The empty sequence has the empty word only; a
terminal has itself; a non-terminal has its set, with the first set of what follows in the place of
the empty word. -/
def firstOf (sets : Family) : List Sign → Except GrammarFault SignSet
  | [] => .ok (.singleton .empty)
  | .terminal t :: _ => .ok (.singleton (.terminal t))
  | .nonTerminal n :: rest => do
    let A ← sets.at? n
    if .empty ∈ A then return A.withoutEmpty ∪ (← firstOf sets rest)
    return A
  | s :: _ => .error (.misplaced s)

namespace First

variable {α : Type}

def visit (sets : Family) (p : Production α) : Except GrammarFault Family := do
  sets.join p.left (← firstOf sets p.right)

def pass (g : Grammar α) (sets : Family) : Except GrammarFault Family :=
  g.productions.foldlM visit sets

/-- The first sets of a grammar whose indices fit, and the number of passes they took. -/
def compute (g : Grammar α) : Except GrammarFault (Family × Nat) := do
  g.validate
  Family.settle (pass g) (Family.passBound g) (Family.blank g.nonTerminals.length)

end First

end PredictiveParsing
