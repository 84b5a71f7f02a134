import PredictiveParsing.Parse.Semantics
import PredictiveParsing.Table.Basic
import PredictiveParsing.Token

/-!
# The parsing machine

A configuration has a stack of nodes to be visited, the tree and pool, and the history of what was
done. With each node on the stack go the actions that are due before it. One step runs the actions
that are due and visits the node on top.

A non-terminal is expanded by the production that the table chooses for it and the current
lookahead: the production's opening action runs at once, the node gets its children, and the
children go onto the stack in their order. The action of a slot is due before its child, and the
closing action before the node that is below the children. A terminal must be the current one and
takes its text and line. The end mark that was put at the bottom of the stack ends the parse.
-/

namespace PredictiveParsing

/-- What stands at a position of the input; `sign` is none when the grammar does not know the kind
of the token there. -/
structure Lookahead where
  sign : Option Sign
  text : String
  line : Nat
  deriving DecidableEq, Repr

namespace Lookahead

variable {α : Type}

def ofToken (g : Grammar α) (t : Token) : Lookahead := ⟨g.terminal t.kind, t.text, t.line⟩

/-- The end of the input, on the line of the last token. -/
def atEnd (tokens : List Token) : Lookahead := ⟨some .pound, "", (tokens.getLast?).elim 1 Token.line⟩

def failure (l : Lookahead) : Failure := .unexpected l.text l.line

end Lookahead

/-- A node to be visited, and the actions that are due before it, each with its own node. -/
structure Frame (α : Type) where
  due : List (α × Nat) := []
  node : Nat
  deriving DecidableEq, Repr

inductive Event (α : Type) where
  /-- The node `id` was expanded by the production at `index` while the lookahead was on `line`. -/
  | expanded (id index line : Nat)
  /-- The node `id` took the current token. -/
  | took (id : Nat)
  /-- An action ran at a node while the tree had `size` nodes. -/
  | ran (action : α) (id size : Nat)
  deriving DecidableEq, Repr

structure Config (α : Type) where
  stack : List (Frame α)
  workspace : Workspace
  /-- What was done, the last first. -/
  history : List (Event α)
  deriving Inhabited

inductive Verdict where
  | accepted
  | rejected (failure : Failure)
  /-- A table or a stack points at a production, a node or a token that there is not. -/
  | astray
  /-- No token was taken for longer than a run can need that ends of itself. -/
  | endless
  deriving DecidableEq, Repr

/-- What a step leads to. -/
inductive Outcome (α : Type) where
  | moved (config : Config α)
  /-- The current token was taken. -/
  | taken (config : Config α)
  | ended (verdict : Verdict) (config : Config α)

/-- A grammar with a table for it and a meaning for its actions. -/
structure Machine (α : Type) where
  grammar : Grammar α
  table : Table
  semantics : Semantics α

namespace Machine

variable {α : Type}

/-- The node of the end mark. -/
def sentinel : Nat := 1

/-- The root, and below it the end mark. -/
def start (m : Machine α) (pool : Pool) : Config α where
  stack := [{ node := Tree.root }, { node := sentinel }]
  workspace := ⟨(Tree.ofRoot (.nonTerminal m.grammar.start)).alloc .pound, pool⟩
  history := []

/-! ## Actions -/

/-- Run an action at a node. -/
def perform (m : Machine α) (action : α) (id : Nat) (c : Config α) :
    Except Failure Unit × Config α :=
  match m.semantics action id with
  | none => (.ok (), c)
  | some effect =>
    match c with
    | ⟨stack, workspace, history⟩ =>
      let size := workspace.tree.size
      match effect workspace with
      | (result, workspace) => (result, ⟨stack, workspace, .ran action id size :: history⟩)

/-- Run actions in their order, up to the first that fails. -/
def performAll (m : Machine α) : List (α × Nat) → Config α → Except Failure Unit × Config α
  | [], c => (.ok (), c)
  | (action, id) :: due, c =>
    match m.perform action id c with
    | (.ok (), c) => performAll m due c
    | (.error failure, c) => (.error failure, c)

/-! ## Expansion -/

/-- The frames of the children from `id` on, each with the action of its slot. -/
def frames (id : Nat) : List (Option α) → List (Frame α)
  | [] => []
  | slot :: slots => ⟨slot.toList.map fun action => (action, id), id⟩ :: frames (id + 1) slots

@[simp] theorem length_frames (id : Nat) (slots : List (Option α)) :
    (frames id slots).length = slots.length := by
  induction slots generalizing id with
  | nil => rfl
  | cons slot slots ih => simp [frames, ih]

/-- The stack with an action due before everything on it. -/
def defer (action : α) (id : Nat) : List (Frame α) → List (Frame α)
  | [] => []
  | frame :: stack => { frame with due := (action, id) :: frame.due } :: stack

@[simp] theorem length_defer (action : α) (id : Nat) (stack : List (Frame α)) :
    (defer action id stack).length = stack.length := by
  cases stack <;> rfl

/-- The stack that remains below the children of the node `id`. -/
def below (p : Production α) (id : Nat) (stack : List (Frame α)) : List (Frame α) :=
  match p.closing with
  | some action => defer action id stack
  | none => stack

/-- Give the node its children and put them onto the stack. -/
def branch (p : Production α) (id : Nat) (c : Config α) : Config α :=
  match c with
  | ⟨stack, ⟨tree, pool⟩, history⟩ =>
    let first := tree.size
    ⟨frames first p.slots ++ below p id stack, ⟨tree.attachAll id p.right, pool⟩, history⟩

/-- Expand the node `id` by the production at `index`. -/
def expand (m : Machine α) (current : Lookahead) (id index : Nat) (c : Config α) : Outcome α :=
  match m.grammar.productions[index]? with
  | none => .ended .astray c
  | some p =>
    if p.slots.length = p.right.length then
      let c := { c with history := .expanded id index current.line :: c.history }
      match m.performAll (p.opening.toList.map fun action => (action, id)) c with
      | (.ok (), c) => .moved (branch p id c)
      | (.error failure, c) => .ended (.rejected failure) c
    else .ended (.rejected (.arity (m.grammar.textOf p))) c

/-! ## Steps -/

/-- The node `id` takes the text and line of the current token. -/
def take (current : Lookahead) (id : Nat) (c : Config α) : Config α :=
  match c with
  | ⟨stack, ⟨tree, pool⟩, history⟩ =>
    let attrs := { tree.attrs id with lexical := some current.text, line := some current.line }
    ⟨stack, ⟨tree.setAttrs id attrs, pool⟩, .took id :: history⟩

/-- Visit a node that was on top of the stack. -/
def visit (m : Machine α) (current : Lookahead) (id : Nat) (c : Config α) : Outcome α :=
  match (c.workspace.tree.node? id).map Node.sign with
  | none => .ended .astray c
  | some .empty => .moved c
  | some (.nonTerminal nt) =>
    match current.sign.bind (m.table.get? nt) with
    | none => .ended (.rejected current.failure) c
    | some index => m.expand current id index c
  | some sign =>
    if current.sign = some sign then
      if id = sentinel then .ended .accepted c else .taken (take current id c)
    else .ended (.rejected current.failure) c

def step (m : Machine α) (current : Lookahead) (c : Config α) : Outcome α :=
  match c with
  | ⟨[], workspace, history⟩ => .ended (.rejected current.failure) ⟨[], workspace, history⟩
  | ⟨frame :: stack, workspace, history⟩ =>
    match m.performAll frame.due ⟨stack, workspace, history⟩ with
    | (.ok (), c) => m.visit current frame.node c
    | (.error failure, c) => .ended (.rejected failure) c

end Machine

end PredictiveParsing
