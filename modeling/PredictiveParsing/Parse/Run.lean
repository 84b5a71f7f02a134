import PredictiveParsing.Log
import PredictiveParsing.Parse.Machine

/-!
# Runs of the machine

A run goes through the input token by token. While the lookahead stays the same, a non-terminal is
always expanded in the same way, so once it is expanded inside an expansion of itself it is so again
and again, until an action fails or for ever. Short of that, the expansions inside one node are nested
at most as deep as there are rows in the table, which bounds the nodes that are visited for one
lookahead. A run is given many more, so that actions may fail some rounds later, and is called endless
when it uses them up.
-/

namespace PredictiveParsing

/-- What a run came to. -/
structure Run (α : Type) where
  verdict : Verdict
  tree : Tree
  pool : Pool
  /-- What was done, in order. -/
  history : List (Event α)

namespace Machine

variable {α : Type}

/-- The length of the longest right side. -/
def longest (g : Grammar α) : Nat := (g.productions.map fun p => p.right.length).foldl max 0

/-- The steps that one node on the stack is given before a token is taken. An expansion takes a step,
and leaves at most `longest` children, so `(longest + 1) ^ rows` would do when nothing repeats. -/
def patience (m : Machine α) : Nat := Nat.pow (longest m.grammar + 2) (m.table.rows.length + 4)

/-- Step until the current token is taken or the run ends. -/
def advance (m : Machine α) (current : Lookahead) : Nat → Config α → Outcome α
  | 0, c => .ended .endless c
  | bound + 1, c =>
    match m.step current c with
    | .moved c => advance m current bound c
    | outcome => outcome

/-- Go through the rest of the input; `last` is the end mark after it. -/
def goOn (m : Machine α) (patience : Nat) (last : Lookahead) :
    List Lookahead → Config α → Verdict × Config α
  | [], c =>
    match m.advance last (c.stack.length * patience + 1) c with
    | .moved c => (.endless, c)
    | .taken c => (.astray, c)
    | .ended verdict c => (verdict, c)
  | current :: rest, c =>
    match m.advance current (c.stack.length * patience + 1) c with
    | .moved c => (.endless, c)
    | .taken c => goOn m patience last rest c
    | .ended verdict c => (verdict, c)

/-- Parse the tokens, starting from the given pool. -/
def run (m : Machine α) (tokens : List Token) (pool : Pool) : Run α :=
  let input := tokens.map (Lookahead.ofToken m.grammar)
  match m.goOn m.patience (Lookahead.atEnd tokens) input (m.start pool) with
  | (verdict, ⟨_, ⟨tree, pool⟩, history⟩) => ⟨verdict, tree, pool, history.reverse⟩

end Machine

namespace Run

variable {α : Type}

/-- The tree of a run, or its failure; a run that is endless or goes astray has neither. -/
def result? (r : Run α) : Option (Except Failure Tree) :=
  match r.verdict with
  | .accepted => some (.ok r.tree)
  | .rejected failure => some (.error failure)
  | .astray => none
  | .endless => none

/-- A line for each expansion. -/
def expansionLine? (g : Grammar α) : Event α → Option LogLine
  | .expanded _ index line =>
    (g.productions[index]?).map fun p => ⟨.trace, s!"line {line}: expand `{g.textOf p}`"⟩
  | _ => none

/-- What the run logs about `tokens` many tokens. -/
def logLines (r : Run α) (g : Grammar α) (tokens : Nat) : List LogLine :=
  r.history.filterMap (expansionLine? g) ++
    match r.verdict with
    | .accepted => [⟨.debug, s!"parsed {tokens} tokens into {r.tree.size - 1} nodes in _ us"⟩]
    | _ => []

/-- The number of tokens that were taken. -/
def taken (r : Run α) : Nat := r.history.countP (· matches .took _)

/-- The actions that ran, each with its node and the size of the tree at that time. -/
def actions (r : Run α) : List (α × Nat × Nat) :=
  r.history.filterMap fun
    | .ran action id size => some (action, id, size)
    | _ => none

end Run

end PredictiveParsing
