import PredictiveParsing.Parse.Semantics

/-!
# The actions of C-minus

An action is a sequence of statements that look around from its node, may complain, and write to the
pool and to the node. Nothing is undone after a complaint.

Types, names and lines come down the tree: a declarator takes them from the siblings before it and
hands them on to what declares. Argument counts come up.
-/

namespace PredictiveParsing.Cminus

inductive Action where
  /-- The keyword below is the node's type. -/
  | typeFromKeyword
  /-- Take type and name from the two siblings before. -/
  | captureDeclarator
  /-- Take type, name and line from the parent. -/
  | inherit
  /-- Take name and line from the sibling before. -/
  | passId
  | declareVariable
  | declareArray
  | openFunction
  | declareParam
  | markArray
  | markScalar
  | resolveVariable
  | resolveCall
  | checkCall
  /-- A call inside an expression must have a value. -/
  | requireValue
  | argsNone
  /-- As many arguments as child `i`. -/
  | argsFrom (i : Nat)
  /-- One argument more than child `i`. -/
  | argsPrepend (i : Nat)
  | returnNothing
  | returnValue
  | literalValue
  | operator
  deriving DecidableEq, Repr, Inhabited

structure Complaint where
  fault : SemanticFault
  line : Option Nat := none
  deriving DecidableEq, Repr

def Complaint.failure (c : Complaint) : Failure := .semantic c.fault c.line

/-- The value, or a complaint that the tree lacks it. -/
def need {β : Type} (missing : Missing) : Option β → Except Complaint β
  | some b => .ok b
  | none => .error ⟨.malformed missing, none⟩

def refuse {β : Type} (fault : SemanticFault) (line : Option Nat) : Except Complaint β :=
  .error ⟨fault, line⟩

/-! ## Looking around -/

/-- The function named at a node or at one of fewer than `bound` nodes on the way up from it. -/
def functionUpTo (t : Tree) : Nat → Nat → Option String
  | 0, _ => none
  | bound + 1, node =>
    match (t.attrs node).function with
    | some function => some function
    | none =>
      match t.parent? node with
      | none => none
      | some parent => functionUpTo t bound parent

/-- The function whose definition encloses a node. -/
def enclosingFunction (t : Tree) (node : Nat) : Option String := functionUpTo t t.size node

def tooLarge (name : String) (length : Option Nat) : SemanticFault :=
  if length.isSome then .arrayTooLarge name else .variableTooLarge name

/-- The function entry that a call names. -/
def calledFunction? (pool : Pool) (name : String) : Option (ValueType × List ValueType) :=
  match pool.function? name with
  | some (.function _ returns params _) => some (returns, params)
  | _ => none

/-! ## Reading numbers -/

/-- The digits' number, when there are digits and nothing else. -/
def digitsValue? (cs : List Char) : Option Nat :=
  if cs ≠ [] ∧ cs.all Char.isDigit then
    some (cs.foldl (fun n c => n * 10 + (c.toNat - '0'.toNat)) 0)
  else none

def withoutPlus : List Char → List Char
  | '+' :: cs => cs
  | cs => cs

/-- A count below the storage limit, possibly with a plus. -/
def count? (text : String) : Option Nat := do
  let n ← digitsValue? (withoutPlus text.toList)
  if n < storageLimit then some n else none

/-- An integer of 64 bits, possibly with a sign. -/
def integer? (text : String) : Option Int :=
  match text.toList with
  | '-' :: cs => do
    let n ← digitsValue? cs
    if n ≤ 0x8000000000000000 then some (-n) else none
  | cs => do
    let n ← digitsValue? (withoutPlus cs)
    if n < 0x8000000000000000 then some n else none

/-! ## Statements -/

/-- Statements that read and write a tree and a pool. What was written before a complaint stays
written. -/
abbrev Act := ExceptT Complaint (StateM Workspace)

namespace Act

def child (node i : Nat) : Act Nat := do need .child ((← get).tree.child? node i)

def sibling (node back : Nat) : Act Nat := do need .sibling ((← get).tree.sibling? node back)

def parent (node : Nat) : Act Nat := do need .parent ((← get).tree.parent? node)

def attrs (node : Nat) : Act Attributes := return (← get).tree.attrs node

def lexical (node : Nat) : Act String := do need .tokenText (← attrs node).lexical

/-- The name at a node, with its line. -/
def identifier (node : Nat) : Act (String × Option Nat) := do
  let attrs ← Act.attrs node
  return (← need .identifier attrs.id, attrs.line)

def enclosing (node : Nat) : Act (Option String) := return enclosingFunction (← get).tree node

def pool : Act Pool := return (← get).pool

/-- `name` is a variable in sight of the node. -/
def isVisible (node : Nat) (name : String) : Act Bool := do
  match (← enclosing node).bind (← pool).view? with
  | some view => return (view.lookup name).isSome
  | none => return (← pool).globals.exist name

def write (node : Nat) (f : Attributes → Attributes) : Act Unit :=
  modify fun ⟨tree, pool⟩ => ⟨tree.setAttrs node (f (tree.attrs node)), pool⟩

def store (f : Pool → Pool) : Act Unit := modify fun ⟨tree, pool⟩ => ⟨tree, f pool⟩

/-- Add an empty scope; the result is its number. -/
def openScope (name : String) : Act Nat :=
  modifyGet fun ⟨tree, pool⟩ => (pool.nextScope, ⟨tree, pool.openScope name⟩)

/-! ## The actions that take more than a few statements -/

/-- Append the node's name to the table of the enclosing function, or to the global one. -/
def declare (node width : Nat) (length : Option Nat) : Act Unit := do
  let (name, line) ← identifier node
  let ty ← need .variableType (← attrs node).ty
  if ty = .void then refuse (.voidVariable name) line
  match ← enclosing node with
  | some function =>
    let view ← need .functionScope ((← pool).view? function)
    if view.exist name then refuse (.redeclared name) line
    if !view.inner.table.hasRoom width then refuse (tooLarge name length) line
    store (·.appendLocal function (.localVar name ty width 0 false))
  | none =>
    if (← pool).globals.exist name || ((← pool).function? name).isSome then
      refuse (.redeclared name) line
    if !(← pool).globals.hasRoom width then refuse (tooLarge name length) line
    store (·.appendGlobal (.globalVar name ty width 0))
  write node ({ · with length })

def declareArray (node : Nat) : Act Unit := do
  let text ← lexical (← child node 1)
  let (name, line) ← identifier node
  match count? text with
  | some (n + 1) =>
    if intWidth * (n + 1) < storageLimit then declare node (intWidth * (n + 1)) (some (n + 1))
    else refuse (tooLarge name (some (n + 1))) line
  | _ => refuse (.badLength name text) line

def openFunction (node : Nat) : Act Unit := do
  let (name, line) ← identifier node
  let returns ← need .functionType (← attrs node).ty
  if ((← pool).function? name).isSome || (← pool).globals.exist name then
    refuse (.redeclared name) line
  let scope ← openScope name
  store (·.appendFunction (.function name returns [] scope))
  write node ({ · with function := some name })

/-- The scope of the function and its entry are looked up one after the other. -/
def declareParam (node : Nat) : Act Unit := do
  let type ← child node 0
  let id ← child node 1
  let subscript ← child node 2
  let name ← lexical id
  let line := (← attrs id).line
  let isArray := (← attrs subscript).flag.getD false
  let ty ← need .parameterType (← attrs type).ty
  if ty = .void then refuse (.voidParameter name) line
  let function ← need .enclosingFunction (← enclosing node)
  let view ← need .functionScope ((← pool).view? function)
  if view.exist name then refuse (.redeclaredParameter name) line
  store (·.appendLocal function (.localVar name ty intWidth 0 true))
  store (·.addParam function ty)
  write node ({ · with id := some name, ty := some ty, flag := some isArray, line })

def checkCall (node : Nat) : Act Unit := do
  let (name, line) ← identifier node
  let args ← child node 1
  let given := (← attrs args).length.getD 0
  let (_, params) ← need .callTarget (calledFunction? (← pool) name)
  if given ≠ params.length then refuse (.argumentCount name params.length given) line
  write node ({ · with length := some given })

def requireValue (node : Nat) : Act Unit := do
  let ty := (← attrs (← child node 0)).ty
  if ty = some .void then
    let (name, line) ← identifier node
    refuse (.voidValue name) line
  write node ({ · with ty })

/-- The function around a `return` with its return type, and the line of the keyword, which is the
sibling before. -/
def returned (node : Nat) : Act (String × ValueType × Option Nat) := do
  let line := (← attrs (← sibling node 1)).line
  match ← enclosing node with
  | none => refuse .strayReturn line
  | some function =>
    let (returns, _) ← need .functionEntry (calledFunction? (← pool) function)
    return (function, returns, line)

end Act

/-! ## The actions -/

open Act in
def Action.run (node : Nat) : Action → Act Unit
  | typeFromKeyword => do
    let keyword ← child node 0
    let text ← lexical keyword
    match ValueType.ofKeyword? text with
    | some ty => write node ({ · with ty := some ty })
    | none => refuse (.notType text) (← attrs keyword).line
  | captureDeclarator => do
    let type ← sibling node 2
    let id ← sibling node 1
    let ty := (← attrs type).ty
    let name ← lexical id
    let line := (← attrs id).line
    write node ({ · with ty, id := some name, line })
  | inherit => do
    let handed ← attrs (← parent node)
    write node ({ · with ty := handed.ty, id := handed.id, line := handed.line })
  | passId => do
    let id ← sibling node 1
    let name ← lexical id
    let line := (← attrs id).line
    write node ({ · with id := some name, line })
  | declareVariable => Act.declare node intWidth none
  | declareArray => Act.declareArray node
  | openFunction => Act.openFunction node
  | declareParam => Act.declareParam node
  | markArray => write node ({ · with flag := some true })
  | markScalar => write node ({ · with flag := some false })
  | resolveVariable => do
    let (name, line) ← identifier node
    if !(← isVisible node name) then refuse (.undeclared name) line
    write node ({ · with ty := some .int })
  | resolveCall => do
    let (name, line) ← identifier node
    match calledFunction? (← pool) name with
    | some (returns, _) => write node ({ · with ty := some returns })
    | none => refuse (.undefinedFunction name) line
  | checkCall => Act.checkCall node
  | requireValue => Act.requireValue node
  | argsNone => write node ({ · with length := some 0 })
  | argsFrom i => do
    let n := (← attrs (← child node i)).length.getD 0
    write node ({ · with length := some n })
  | argsPrepend i => do
    let n := (← attrs (← child node i)).length.getD 0
    write node ({ · with length := some (n + 1) })
  | returnNothing => do
    let (function, returns, line) ← returned node
    if returns ≠ .void then refuse (.missingValue function) line
  | returnValue => do
    let (function, returns, line) ← returned node
    if returns = .void then refuse (.unwantedValue function) line
  | literalValue => do
    let literal ← child node 0
    let text ← lexical literal
    let line := (← attrs literal).line
    match integer? text with
    | some n => write node ({ · with num := some n, ty := some .int, line })
    | none => refuse (.badLiteral text) line
  | operator => do
    let text ← lexical (← child node 0)
    write node ({ · with op := some text })

/-- Run an action at a node. -/
def Action.effect (action : Action) (node : Nat) : Effect := fun w =>
  match (action.run node).run.run w with
  | (outcome, w') => (outcome.mapError Complaint.failure, w')

def semantics : Semantics Action := fun action node => some (action.effect node)

/-! ## Names of actions -/

def Action.name : Action → String
  | typeFromKeyword => "TypeFromKeyword"
  | captureDeclarator => "CaptureDeclarator"
  | inherit => "Inherit"
  | passId => "PassId"
  | declareVariable => "DeclareVariable"
  | declareArray => "DeclareArray"
  | openFunction => "OpenFunction"
  | declareParam => "DeclareParam"
  | markArray => "MarkArray"
  | markScalar => "MarkScalar"
  | resolveVariable => "ResolveVariable"
  | resolveCall => "ResolveCall"
  | checkCall => "CheckCall"
  | requireValue => "RequireValue"
  | argsNone => "ArgsNone"
  | argsFrom i => s!"ArgsFrom({i})"
  | argsPrepend i => s!"ArgsPrepend({i})"
  | returnNothing => "ReturnNothing"
  | returnValue => "ReturnValue"
  | literalValue => "LiteralValue"
  | operator => "Operator"

end PredictiveParsing.Cminus
