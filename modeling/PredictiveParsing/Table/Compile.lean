import PredictiveParsing.Log
import PredictiveParsing.Lookahead.Follow
import PredictiveParsing.Table.Basic
import PredictiveParsing.Table.Overlap

/-!
# Compiling a table

A production claims the lookaheads in the first set of its right side, and when that side can vanish
also those that follow its left side. Productions enter their claims in order, each in the order of
signs. A cell goes to its first claimant; a later claim of a production of the same shape changes
nothing, and any other is a conflict, which ends the compilation.
-/

namespace PredictiveParsing

namespace Table

variable {α : Type}

/-- The production `p`, at `index`, claims the cell of `lookahead`. -/
def claim (g : Grammar α) (p : Production α) (index : Nat) (t : Table) (lookahead : Sign) :
    Except GrammarFault Table :=
  match t.column? lookahead with
  | none => .error (.notLookahead lookahead)
  | some column =>
    match t.cell? p.left column with
    | none => .ok (t.put p.left column index)
    | some holder =>
      match g.productions[holder]? with
      | none => .ok t
      | some q =>
        if holder = index ∨ q.SameShape p then .ok t
        else .error (.conflict (g.nameOf (.nonTerminal p.left)) (g.nameOf lookahead) (g.textOf q)
          (g.textOf p))

/-- The lookaheads that `p` claims, in the order in which it claims them. -/
def claims (firsts follows : Family) (p : Production α) : Except GrammarFault (List Sign) := do
  let first ← firstOf firsts p.right
  if .empty ∈ first then
    let follow ← follows.at? p.left
    return first.withoutEmpty.members ++ follow.members
  else
    return first.members

/-- Enter every claim of the production at `index`. -/
def enter (g : Grammar α) (firsts follows : Family) (t : Table) (entry : Production α × Nat) :
    Except GrammarFault Table := do
  (← claims firsts follows entry.1).foldlM (claim g entry.1 entry.2) t

def fill (g : Grammar α) (firsts follows : Family) : Except GrammarFault Table :=
  g.productions.zipIdx.foldlM (enter g firsts follows)
    (blank g.nonTerminals.length g.terminals.length)

end Table

/-- A table with the sets that it was filled from. -/
structure Compiled where
  firsts : Family
  follows : Family
  overlaps : List Overlap
  table : Table
  deriving DecidableEq

namespace Compiled

variable {α : Type}

def ofGrammar (g : Grammar α) : Except GrammarFault Compiled := do
  let (firsts, _) ← First.compute g
  let (follows, _) ← Follow.compute g firsts
  let overlaps ← Overlap.ofGrammar g firsts follows
  let table ← Table.fill g firsts follows
  return { firsts, follows, overlaps, table }

/-! ## What compiling logs -/

def firstLine (passes : Nat) : LogLine := ⟨.debug, s!"first sets converged after {passes} passes"⟩

def followLine (passes : Nat) : LogLine := ⟨.debug, s!"follow sets converged after {passes} passes"⟩

def fillLines (g : Grammar α) (overlaps : Nat) : Except GrammarFault Table → List LogLine
  | .error (.conflict nonTerminal lookahead earlier later) =>
    [⟨.error, GrammarFault.message (.conflict nonTerminal lookahead earlier later)⟩]
  | .error _ => []
  | .ok t =>
    [⟨.debug, s!"predictive table: {g.productions.length} productions, {t.rows.length}x{t.columns} " ++
      s!"cells, {t.filled} filled, {overlaps} warnings in _ us"⟩]

/-- The lines of a compilation, as far as it comes. -/
def logLines (g : Grammar α) : List LogLine :=
  match First.compute g with
  | .error _ => []
  | .ok (firsts, passes) =>
    firstLine passes ::
      match Follow.compute g firsts with
      | .error _ => []
      | .ok (follows, passes) =>
        followLine passes ::
          match Overlap.ofGrammar g firsts follows with
          | .error _ => []
          | .ok overlaps =>
            overlaps.map (fun o => ⟨.warn, o.message⟩) ++
              fillLines g overlaps.length (Table.fill g firsts follows)

end Compiled

end PredictiveParsing
