import PredictiveParsing.Cminus.Action
import PredictiveParsing.Proofs.Tree.Nodes

/-!
# What an action decides

An action looks around from its node and at the pool (`Site`), and decides what to change: the
attributes of its own node, and at most one declaration (`Action.judge`). Its statements come to
nothing else (`Action.effect_eq`): no complaint follows a write, and the writes together are the
change.
-/

namespace PredictiveParsing.Cminus

/-! ## Looking around -/

/-- What an action sees: its node, the nodes next to it, the function around it, and the pool. -/
structure Site where
  own : Attributes
  child? : Nat → Option Attributes
  sibling? : Nat → Option Attributes
  parent? : Option Attributes
  function? : Option String
  pool : Pool

namespace Site

def of (w : Workspace) (node : Nat) : Site where
  own := w.tree.attrs node
  child? i := (w.tree.child? node i).map w.tree.attrs
  sibling? back := (w.tree.sibling? node back).map w.tree.attrs
  parent? := (w.tree.parent? node).map w.tree.attrs
  function? := enclosingFunction w.tree node
  pool := w.pool

def child (s : Site) (i : Nat) : Except Complaint Attributes := need .child (s.child? i)

def sibling (s : Site) (back : Nat) : Except Complaint Attributes := need .sibling (s.sibling? back)

def identifier (s : Site) : Except Complaint String := need .identifier s.own.id

/-- `name` is a variable in sight. -/
def isVisible (s : Site) (name : String) : Bool :=
  match s.function?.bind s.pool.view? with
  | some view => (view.lookup name).isSome
  | none => s.pool.globals.exist name

end Site

def textOf (a : Attributes) : Except Complaint String := need .tokenText a.lexical

/-! ## What each action decides -/

/-- What an action does to its node and to the pool. -/
structure Change where
  attrs : Attributes
  binding : Option Binding := none
  deriving DecidableEq, Repr

/-- Declare the node's name with this width, in the enclosing function or globally. -/
def declare (s : Site) (width : Nat) (length : Option Nat) : Except Complaint Change := do
  let name ← s.identifier
  let attrs := s.own
  let ty ← need .variableType attrs.ty
  if ty = .void then refuse (.voidVariable name) attrs.line
  match s.function? with
  | some function =>
    let view ← need .functionScope (s.pool.view? function)
    if view.exist name then refuse (.redeclared name) attrs.line
    if !view.inner.table.hasRoom width then refuse (tooLarge name length) attrs.line
    return ⟨{ attrs with length }, some (.localVar function name ty width)⟩
  | none =>
    if s.pool.globals.exist name || (s.pool.function? name).isSome then
      refuse (.redeclared name) attrs.line
    if !s.pool.globals.hasRoom width then refuse (tooLarge name length) attrs.line
    return ⟨{ attrs with length }, some (.globalVar name ty width)⟩

def declareArray (s : Site) : Except Complaint Change := do
  let text ← textOf (← s.child 1)
  let name ← s.identifier
  match count? text with
  | some (n + 1) =>
    if intWidth * (n + 1) < storageLimit then declare s (intWidth * (n + 1)) (some (n + 1))
    else refuse (.arrayTooLarge name) s.own.line
  | _ => refuse (.badLength name text) s.own.line

def openFunction (s : Site) : Except Complaint Change := do
  let name ← s.identifier
  let returns ← need .functionType s.own.ty
  if (s.pool.function? name).isSome || s.pool.globals.exist name then
    refuse (.redeclared name) s.own.line
  return ⟨{ s.own with function := some name }, some (.function name returns)⟩

def declareParam (s : Site) : Except Complaint Change := do
  let type ← s.child 0
  let id ← s.child 1
  let subscript ← s.child 2
  let name ← textOf id
  let line := id.line
  let isArray := subscript.flag.getD false
  let ty ← need .parameterType type.ty
  if ty = .void then refuse (.voidParameter name) line
  let function ← need .enclosingFunction s.function?
  let view ← need .functionScope (s.pool.view? function)
  if view.exist name then refuse (.redeclaredParameter name) line
  let attrs := { s.own with id := some name, ty := some ty, flag := some isArray, line }
  return ⟨attrs, some (.param function name ty)⟩

def checkCall (s : Site) : Except Complaint Change := do
  let name ← s.identifier
  let args ← s.child 1
  let given := args.length.getD 0
  let (_, params) ← need .callTarget (calledFunction? s.pool name)
  if given ≠ params.length then refuse (.argumentCount name params.length given) s.own.line
  return ⟨{ s.own with length := some given }, none⟩

def requireValue (s : Site) : Except Complaint Change := do
  let ty := (← s.child 0).ty
  if ty = some .void then
    let name ← s.identifier
    refuse (.voidValue name) s.own.line
  return ⟨{ s.own with ty }, none⟩

/-- The return type of the function around a `return`, whose keyword is the sibling before. -/
def returned (s : Site) : Except Complaint (String × ValueType × Option Nat) := do
  let line := (← s.sibling 1).line
  match s.function? with
  | none => refuse .strayReturn line
  | some function =>
    let (returns, _) ← need .functionEntry (calledFunction? s.pool function)
    return (function, returns, line)

def Action.judge (s : Site) : Action → Except Complaint Change
  | typeFromKeyword => do
    let keyword ← s.child 0
    let text ← textOf keyword
    match ValueType.ofKeyword? text with
    | some ty => return ⟨{ s.own with ty := some ty }, none⟩
    | none => refuse (.notType text) keyword.line
  | captureDeclarator => do
    let type ← s.sibling 2
    let id ← s.sibling 1
    let name ← textOf id
    return ⟨{ s.own with ty := type.ty, id := some name, line := id.line }, none⟩
  | inherit => do
    let handed ← need .parent s.parent?
    return ⟨{ s.own with ty := handed.ty, id := handed.id, line := handed.line }, none⟩
  | passId => do
    let id ← s.sibling 1
    let name ← textOf id
    return ⟨{ s.own with id := some name, line := id.line }, none⟩
  | declareVariable => declare s intWidth none
  | declareArray => Cminus.declareArray s
  | openFunction => Cminus.openFunction s
  | declareParam => Cminus.declareParam s
  | markArray => return ⟨{ s.own with flag := some true }, none⟩
  | markScalar => return ⟨{ s.own with flag := some false }, none⟩
  | resolveVariable => do
    let name ← s.identifier
    if !s.isVisible name then refuse (.undeclared name) s.own.line
    return ⟨{ s.own with ty := some .int }, none⟩
  | resolveCall => do
    let name ← s.identifier
    match calledFunction? s.pool name with
    | some (returns, _) => return ⟨{ s.own with ty := some returns }, none⟩
    | none => refuse (.undefinedFunction name) s.own.line
  | checkCall => Cminus.checkCall s
  | requireValue => Cminus.requireValue s
  | argsNone => return ⟨{ s.own with length := some 0 }, none⟩
  | argsFrom i => do
    let n := (← s.child i).length.getD 0
    return ⟨{ s.own with length := some n }, none⟩
  | argsPrepend i => do
    let n := (← s.child i).length.getD 0
    return ⟨{ s.own with length := some (n + 1) }, none⟩
  | returnNothing => do
    let (function, returns, line) ← returned s
    if returns ≠ .void then refuse (.missingValue function) line
    return ⟨s.own, none⟩
  | returnValue => do
    let (function, returns, line) ← returned s
    if returns = .void then refuse (.unwantedValue function) line
    return ⟨s.own, none⟩
  | literalValue => do
    let literal ← s.child 0
    let text ← textOf literal
    match integer? text with
    | some n => return ⟨{ s.own with num := some n, ty := some .int, line := literal.line }, none⟩
    | none => refuse (.badLiteral text) literal.line
  | operator => do
    let text ← textOf (← s.child 0)
    return ⟨{ s.own with op := some text }, none⟩

/-! ## What the statements come to -/

def Change.commit (change : Change) (node : Nat) (w : Workspace) : Workspace :=
  match w with
  | ⟨tree, pool⟩ =>
    ⟨tree.setAttrs node change.attrs,
      match change.binding with
      | some binding => pool.declare binding
      | none => pool⟩

/-- Run from `w`, the statements have this outcome and write nothing. -/
def Finds {β : Type} (w : Workspace) (x : Act β) (outcome : Except Complaint β) : Prop :=
  x.run.run w = (outcome, w)

/-- Run from `w`, the statements end as `conclude` says of what is decided, or with the complaint and
nothing written. -/
def ComesTo {β γ : Type} (w : Workspace) (conclude : γ → Except Complaint β × Workspace) (x : Act β)
    (decided : Except Complaint γ) : Prop :=
  x.run.run w = match decided with
    | .ok c => conclude c
    | .error complaint => (.error complaint, w)

/-- Run from `w`, the statements make the change that is decided. -/
abbrev Settles (node : Nat) (w : Workspace) (x : Act Unit) (decided : Except Complaint Change) :
    Prop :=
  ComesTo w (fun change => (.ok (), change.commit node w)) x decided

theorem run_bind {β γ : Type} (x : Act β) (f : β → Act γ) (w : Workspace) :
    (x >>= f).run.run w = match x.run.run w with
      | (.ok b, w') => (f b).run.run w'
      | (.error complaint, w') => (.error complaint, w') := by
  show StateT.run (ExceptT.run x >>= ExceptT.bindCont f) w = _
  rw [StateT.run_bind]
  rcases x.run.run w with ⟨_ | _, w'⟩ <;> rfl

/-! One rule for each kind of statement. -/

namespace ComesTo

variable {β γ δ : Type} {node : Nat} {w : Workspace} {conclude : γ → Except Complaint β × Workspace}

theorem finds {x : Act β} {e : Except Complaint β}
    (h : ComesTo w (fun b => (.ok b, w)) x e) : Finds w x e := by
  unfold ComesTo at h
  rw [Finds, h]
  cases e <;> rfl

theorem bind {x : Act δ} {e : Except Complaint δ} {f : δ → Act β} {g : δ → Except Complaint γ}
    (hx : Finds w x e) (h : ∀ d, ComesTo w conclude (f d) (g d)) :
    ComesTo w conclude (x >>= f) (e >>= g) := by
  unfold ComesTo
  rw [run_bind, hx]
  cases e with
  | error complaint => rfl
  | ok d => exact h d

/-- A look at what is there in any case. -/
theorem look {x : Act δ} {d : δ} {f : δ → Act β} {decided : Except Complaint γ}
    (hx : Finds w x (.ok d)) (h : ComesTo w conclude (f d) decided) :
    ComesTo w conclude (x >>= f) decided := by
  unfold ComesTo
  rw [run_bind, hx]
  exact h

/-- The way to another node, whose attributes decide. -/
theorem locate {x : Act Nat} {f : Nat → Act β} {g : Attributes → Except Complaint γ}
    {missing : Missing} {o : Option Nat} (hx : Finds w x (need missing o))
    (h : ∀ c, ComesTo w conclude (f c) (g (w.tree.attrs c))) :
    ComesTo w conclude (x >>= f) (need missing (o.map w.tree.attrs) >>= g) := by
  unfold ComesTo
  rw [run_bind, hx]
  cases o with
  | none => rfl
  | some c => exact h c

/-- The name at the node, which comes with the node's line. -/
theorem identifier {f : String × Option Nat → Act β} {g : String → Except Complaint γ}
    (h : ∀ name, ComesTo w conclude (f (name, (w.tree.attrs node).line)) (g name)) :
    ComesTo w conclude (Act.identifier node >>= f) ((Site.of w node).identifier >>= g) := by
  have hx : Finds w (Act.identifier node) (need .identifier (w.tree.attrs node).id >>=
      fun name => .ok (name, (w.tree.attrs node).line)) :=
    finds <| look rfl <| bind rfl fun _ => rfl
  have hid : (Site.of w node).identifier = need .identifier (w.tree.attrs node).id := rfl
  unfold ComesTo
  rw [run_bind, hx, hid]
  cases (w.tree.attrs node).id with
  | none => rfl
  | some name => exact h name

/-- Complain if `R`, else go on. -/
theorem check {R : Prop} [Decidable R] {fault : SemanticFault} {line : Option Nat}
    {f : Unit → Act β} {g : Unit → Except Complaint γ}
    (h : ¬ R → ComesTo w conclude (f ()) (g ())) :
    ComesTo w conclude (if R then liftM (refuse fault line) >>= f else f ())
      (if R then refuse fault line >>= g else g ()) := by
  by_cases hR : R
  · rw [if_pos hR, if_pos hR]
    rfl
  · rw [if_neg hR, if_neg hR]
    exact h hR

theorem refuses (fault : SemanticFault) (line : Option Nat) :
    ComesTo w conclude (liftM (refuse fault line : Except Complaint β)) (refuse fault line) := rfl

end ComesTo

/-! ## Actions -/

variable {node : Nat} {w : Workspace}

theorem finds_isVisible (name : String) :
    Finds w (Act.isVisible node name) (.ok ((Site.of w node).isVisible name)) := by
  have hview : (Site.of w node).function?.bind (Site.of w node).pool.view? =
      (enclosingFunction w.tree node).bind w.pool.view? := rfl
  refine ComesTo.finds <| .look rfl <| .look rfl ?_
  rw [Site.isVisible, hview]
  cases (enclosingFunction w.tree node).bind w.pool.view? with
  | none => exact .look rfl rfl
  | some view => rfl

theorem finds_returned : Finds w (Act.returned node) (returned (Site.of w node)) := by
  have hfunction : (Site.of w node).function? = enclosingFunction w.tree node := rfl
  refine ComesTo.finds <| .locate rfl fun keyword => .look rfl <| .look rfl ?_
  rw [hfunction]
  cases enclosingFunction w.tree node with
  | none => exact .refuses _ _
  | some function => exact .look rfl <| .bind rfl fun entry => rfl

theorem settles_write (update : Attributes → Attributes) :
    Settles node w (Act.write node update) (.ok ⟨update (w.tree.attrs node), none⟩) := rfl

/-- A last check, behind which nothing is written. -/
theorem settles_check {R : Prop} [Decidable R] {fault : SemanticFault} {line : Option Nat} :
    Settles node w (if R then liftM (refuse fault line : Except Complaint Unit) else pure ())
      (if R then refuse fault line >>= fun _ : Unit => .ok ⟨w.tree.attrs node, none⟩
        else .ok ⟨w.tree.attrs node, none⟩) := by
  by_cases hR : R
  · rw [if_pos hR, if_pos hR]
    rfl
  · rw [if_neg hR, if_neg hR]
    show (Except.ok (), w) = (Except.ok (), (⟨w.tree.setAttrs node _, w.pool⟩ : Workspace))
    rw [Tree.setAttrs_attrs]

/-- The declaration of a variable, and after it the attributes. -/
theorem settles_store {p : Pool → Pool} {b : Binding} (update : Attributes → Attributes)
    (h : p w.pool = w.pool.declare b) :
    Settles node w (Act.store p >>= fun _ => Act.write node update)
      (.ok ⟨update (w.tree.attrs node), some b⟩) := by
  show (Except.ok (), (⟨_, p w.pool⟩ : Workspace)) = _
  rw [h]
  rfl

theorem settles_declare (width : Nat) (length : Option Nat) :
    Settles node w (Act.declare node width length) (declare (Site.of w node) width length) := by
  have hfunction : (Site.of w node).function? = enclosingFunction w.tree node := rfl
  refine .identifier fun name => .look rfl <| .bind rfl fun ty => .check fun _ => .look rfl ?_
  rw [hfunction]
  cases enclosingFunction w.tree node with
  | some function =>
    refine .look rfl <| .bind rfl fun view => .check fun _ => .check fun _ => ?_
    exact settles_store _ rfl
  | none =>
    refine .look rfl <| .look rfl <| .check fun _ => .look rfl <| .check fun _ => ?_
    exact settles_store _ rfl

theorem settles_declareArray :
    Settles node w (Act.declareArray node) (declareArray (Site.of w node)) := by
  refine .locate rfl fun num => .bind rfl fun text => .identifier fun name => ?_
  rcases count? text with _ | _ | n
  · exact .refuses _ _
  · exact .refuses _ _
  · dsimp only
    split
    · exact settles_declare _ _
    · exact .refuses _ _

theorem settles_openFunction :
    Settles node w (Act.openFunction node) (openFunction (Site.of w node)) := by
  refine .identifier fun name => .look rfl <| .bind rfl fun returns => ?_
  exact .look rfl <| .look rfl <| .check fun _ => rfl

theorem settles_declareParam :
    Settles node w (Act.declareParam node) (declareParam (Site.of w node)) := by
  refine .locate rfl fun type => .locate rfl fun id => .locate rfl fun subscript => ?_
  refine .bind rfl fun name => .look rfl <| .look rfl <| .look rfl <| ?_
  refine .bind rfl fun ty => .check fun _ => .look rfl <| .bind rfl fun function => ?_
  exact .look rfl <| .bind rfl fun view => .check fun _ => rfl

theorem settles_checkCall :
    Settles node w (Act.checkCall node) (checkCall (Site.of w node)) := by
  refine .identifier fun name => .locate rfl fun args => .look rfl <| .look rfl ?_
  exact .bind rfl fun entry => .check fun _ => settles_write _

theorem settles_requireValue :
    Settles node w (Act.requireValue node) (requireValue (Site.of w node)) := by
  refine .locate rfl fun call => .look rfl ?_
  dsimp only
  split
  · exact .identifier fun name => rfl
  · exact settles_write _

/-- The statements of an action come to what it decides. -/
theorem settles_run (action : Action) :
    Settles node w (action.run node) (action.judge (Site.of w node)) := by
  cases action with
  | typeFromKeyword =>
    refine .locate rfl fun keyword => .bind rfl fun text => ?_
    cases ValueType.ofKeyword? text with
    | some ty => exact settles_write _
    | none => exact .look rfl <| .refuses _ _
  | captureDeclarator =>
    refine .locate rfl fun type => .locate rfl fun id => .look rfl <| .bind rfl fun name => ?_
    exact .look rfl <| settles_write _
  | inherit => exact .locate rfl fun handed => .look rfl <| settles_write _
  | passId => exact .locate rfl fun id => .bind rfl fun name => .look rfl <| settles_write _
  | declareVariable => exact settles_declare _ _
  | declareArray => exact settles_declareArray
  | openFunction => exact settles_openFunction
  | declareParam => exact settles_declareParam
  | markArray => rfl
  | markScalar => rfl
  | resolveVariable =>
    exact .identifier fun name => .look (finds_isVisible name) <| .check fun _ => settles_write _
  | resolveCall =>
    refine .identifier fun name => .look rfl ?_
    rw [show (Site.of w node).pool = w.pool from rfl]
    cases calledFunction? w.pool name with
    | some entry => exact settles_write _
    | none => exact .refuses _ _
  | checkCall => exact settles_checkCall
  | requireValue => exact settles_requireValue
  | argsNone => rfl
  | argsFrom i => exact .locate rfl fun count => .look rfl <| settles_write _
  | argsPrepend i => exact .locate rfl fun count => .look rfl <| settles_write _
  | returnNothing => exact .bind finds_returned fun entry => settles_check
  | returnValue => exact .bind finds_returned fun entry => settles_check
  | literalValue =>
    refine .locate rfl fun literal => .bind rfl fun text => .look rfl ?_
    dsimp only
    cases integer? text with
    | some n => exact settles_write _
    | none => exact .refuses _ _
  | operator => exact .locate rfl fun op => .bind rfl fun text => settles_write _

/-- Running an action is making the change that it decides on, if it has no complaint. -/
theorem Action.effect_eq (action : Action) (node : Nat) (w : Workspace) :
    action.effect node w = match action.judge (Site.of w node) with
      | .ok change => (.ok (), change.commit node w)
      | .error complaint => (.error complaint.failure, w) := by
  have hrun : (action.run node).run.run w = _ := settles_run action
  rw [Action.effect, hrun]
  cases action.judge (Site.of w node) <;> rfl

end PredictiveParsing.Cminus
