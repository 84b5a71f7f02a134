import PredictiveParsing.Proofs.Cminus.Decisions
import PredictiveParsing.Proofs.Parse.Boundaries
import PredictiveParsing.Proofs.Symbols.Growth
import PredictiveParsing.Proofs.Tree.Shape

/-!
# What an action changes

An action that complains has written nothing, and one that does not complain writes the attributes
of its node and makes at most one declaration (`effect_cases`), although its statements run one after
the other and none is undone. `Declares` lists the declarations that an action may make: variables
for which there is room, functions, and parameters of a function with a scope.

* `Action.effect_atomic`: all changes or none, and nothing but the node and one declaration;
* `keeps_of_becomes`: what is in the pool stays there in a run, and in all that come after it.
-/

namespace PredictiveParsing.Cminus

/-! ## What a judgement ensures -/

/-- Each result of the computation has `Q`. -/
def Ensures {β : Type} (x : Except Complaint β) (Q : β → Prop) : Prop := ∀ b, x = .ok b → Q b

section Ensures

variable {β γ : Type} {Q : β → Prop}

theorem ensures_ok {b : β} (h : Q b) : Ensures (.ok b) Q := by
  rintro _ ⟨⟩
  exact h

theorem ensures_refuse (fault : SemanticFault) (line : Option Nat) :
    Ensures (refuse fault line) Q := nofun

theorem ensures_bind {x : Except Complaint γ} {f : γ → Except Complaint β}
    (h : ∀ c, x = .ok c → Ensures (f c) Q) : Ensures (x >>= f) Q := by
  cases x with
  | error => exact nofun
  | ok c => exact h c rfl

/-- Complain if `R`, else go on. -/
theorem ensures_unless {R : Prop} [Decidable R] {fault : SemanticFault} {line : Option Nat}
    {f : Unit → Except Complaint β} (h : ¬ R → Ensures (f ()) Q) :
    Ensures (if R then refuse fault line >>= f else f ()) Q := by
  by_cases hR : R
  · rw [if_pos hR]
    exact nofun
  · rw [if_neg hR]
    exact h hR

theorem need_eq_ok {missing : Missing} {o : Option β} {b : β} (h : need missing o = .ok b) :
    o = some b := by
  cases o with
  | none => cases h
  | some => exact congrArg some (Except.ok.inj h)

end Ensures

/-! ## Declarations -/

/-- What an action may declare with a pool that it finds, besides nothing. -/
inductive Declares (pool : Pool) (action : Action) : Option Binding → Prop
  | nothing : Declares pool action none
  | outside {width : Nat} (hroom : pool.globals.hasRoom width = true) (name : String)
      (ty : ValueType) : Declares pool action (some (.globalVar name ty width))
  | inside {function : String} {width : Nat} {view : ScopeView}
      (hview : pool.view? function = some view) (hroom : view.inner.table.hasRoom width = true)
      (name : String) (ty : ValueType) :
      Declares pool action (some (.localVar function name ty width))
  | function (name : String) (returns : ValueType) :
      Declares pool action (some (.function name returns))
  | param {function : String} {view : ScopeView} (haction : action = .declareParam)
      (hview : pool.view? function = some view) (name : String) (ty : ValueType) :
      Declares pool action (some (.param function name ty))

theorem declares_declare (s : Site) (action : Action) (width : Nat) (length : Option Nat) :
    Ensures (declare s width length) fun change => Declares s.pool action change.binding := by
  refine ensures_bind fun name _ => ensures_bind fun ty _ => ensures_unless fun _ => ?_
  split
  next function hf =>
    refine ensures_bind fun view hview => ensures_unless fun _ => ensures_unless fun hroom => ?_
    exact ensures_ok (.inside (need_eq_ok hview) (by simpa using hroom) name ty)
  next =>
    refine ensures_unless fun _ => ensures_unless fun hroom => ensures_ok ?_
    exact .outside (by simpa using hroom) name ty

theorem declares_of_judge (s : Site) (action : Action) :
    Ensures (action.judge s) fun change => Declares s.pool action change.binding := by
  have hquiet (attrs : Attributes) :
      Ensures (.ok (Change.mk attrs none)) fun change => Declares s.pool action change.binding :=
    ensures_ok .nothing
  cases action with
  | declareVariable => exact declares_declare s _ _ _
  | declareArray =>
    refine ensures_bind fun child _ => ensures_bind fun text _ => ensures_bind fun name _ => ?_
    split
    · split
      · exact declares_declare s _ _ _
      · exact ensures_refuse _ _
    · exact ensures_refuse _ _
  | openFunction =>
    refine ensures_bind fun name _ => ensures_bind fun returns _ => ensures_unless fun _ => ?_
    exact ensures_ok (.function name returns)
  | declareParam =>
    refine ensures_bind fun type _ => ensures_bind fun id _ => ensures_bind fun subscript _ => ?_
    refine ensures_bind fun name _ => ensures_bind fun ty _ => ensures_unless fun _ => ?_
    refine ensures_bind fun function _ => ensures_bind fun view hview => ensures_unless fun _ => ?_
    exact ensures_ok (.param rfl (need_eq_ok hview) name ty)
  | typeFromKeyword =>
    refine ensures_bind fun keyword _ => ensures_bind fun text _ => ?_
    split
    · exact hquiet _
    · exact ensures_refuse _ _
  | captureDeclarator =>
    exact ensures_bind fun _ _ => ensures_bind fun _ _ => ensures_bind fun _ _ => hquiet _
  | inherit => exact ensures_bind fun _ _ => hquiet _
  | passId => exact ensures_bind fun _ _ => ensures_bind fun _ _ => hquiet _
  | markArray => exact hquiet _
  | markScalar => exact hquiet _
  | resolveVariable => exact ensures_bind fun _ _ => ensures_unless fun _ => hquiet _
  | resolveCall =>
    refine ensures_bind fun name _ => ?_
    split
    · exact hquiet _
    · exact ensures_refuse _ _
  | checkCall =>
    refine ensures_bind fun name _ => ensures_bind fun args _ => ensures_bind fun entry _ => ?_
    exact ensures_unless fun _ => hquiet _
  | requireValue =>
    refine ensures_bind fun child _ => ?_
    show Ensures (if _ then _ else _) _
    split
    · exact ensures_bind fun _ _ => ensures_bind fun _ _ => hquiet _
    · exact hquiet _
  | argsNone => exact hquiet _
  | argsFrom => exact ensures_bind fun _ _ => hquiet _
  | argsPrepend => exact ensures_bind fun _ _ => hquiet _
  | returnNothing => exact ensures_bind fun _ _ => ensures_unless fun _ => hquiet _
  | returnValue => exact ensures_bind fun _ _ => ensures_unless fun _ => hquiet _
  | literalValue =>
    refine ensures_bind fun literal _ => ensures_bind fun text _ => ?_
    split
    · exact hquiet _
    · exact ensures_refuse _ _
  | operator => exact ensures_bind fun _ _ => ensures_bind fun _ _ => hquiet _

/-! ## Effects -/

/-- An action complains, or it writes to its node and declares what it may. -/
theorem effect_cases (action : Action) (node : Nat) (w : Workspace) :
    (∃ failure, action.effect node w = (.error failure, w)) ∨
      ∃ attrs declared, Declares w.pool action declared ∧
        action.effect node w =
          (.ok (), ⟨w.tree.setAttrs node attrs, declared.elim w.pool w.pool.declare⟩) := by
  rw [Action.effect_eq]
  cases hj : action.judge (Site.of w node) with
  | error complaint => exact .inl ⟨complaint.failure, rfl⟩
  | ok change =>
    obtain ⟨attrs, declared⟩ := change
    refine .inr ⟨attrs, declared, declares_of_judge _ _ _ hj, ?_⟩
    cases declared with
    | none => rfl
    | some b => rfl

theorem gains_of_declares {pool : Pool} {action : Action} {b : Binding}
    (h : Declares pool action (some b)) : pool.Gains (pool.declare b) := by
  have hplace {function : String} {view : ScopeView} (hview : pool.view? function = some view) :
      (pool.scope? function).isSome := by
    obtain ⟨scope, hscope, -⟩ := Option.map_eq_some_iff.mp hview
    exact Option.isSome_of_eq_some hscope
  refine Pool.gains_declare ?_
  cases h with
  | outside => trivial
  | inside hview => exact hplace hview
  | function => trivial
  | param _ hview => exact hplace hview

theorem turns_cases {p q : Pool} (h : semantics.Turns p q) :
    q = p ∨ ∃ action b, Declares p action (some b) ∧ q = p.declare b := by
  obtain ⟨action, node, w⟩ := h
  have hat : semantics.at (some action) node w = action.effect node w := rfl
  rw [hat]
  rcases effect_cases action node w with ⟨failure, he⟩ | ⟨attrs, _ | b, hdeclares, he⟩
  · exact .inl (congrArg (·.2.pool) he)
  · exact .inl (congrArg (·.2.pool) he)
  · exact .inr ⟨action, b, hdeclares, congrArg (·.2.pool) he⟩

/-- What is declared stays declared, whatever the actions after it are. -/
theorem keeps_of_becomes {p q : Pool} (h : semantics.Becomes p q) : p.Keeps q := by
  induction h with
  | refl => exact .refl p
  | tail _ hturn ih =>
    rcases turns_cases hturn with rfl | ⟨action, b, hdeclares, rfl⟩
    · exact ih
    · exact ih.trans (gains_of_declares hdeclares).keeps

/-- When an action fails, tree and pool are as they were. When it does not, the tree differs at most
in the attributes of the node, and the pool at most by one declaration. -/
theorem Action.effect_atomic (action : Action) (node : Nat) (w : Workspace) :
    match action.effect node w with
    | (.error _, w') => w' = w
    | (.ok (), w') =>
      w'.tree.bare = w.tree.bare ∧
      (∀ other, other ≠ node → w'.tree.attrs other = w.tree.attrs other) ∧
      w.pool.Keeps w'.pool ∧
      (w'.pool = w.pool ∨ w.pool.Gains w'.pool) := by
  rcases effect_cases action node w with ⟨failure, he⟩ | ⟨attrs, declared, hdeclares, he⟩
  · rw [he]
  · rw [he]
    refine ⟨Tree.bare_setAttrs .., fun other hother => Tree.attrs_setAttrs_of_ne hother attrs, ?_⟩
    cases declared with
    | none => exact ⟨.refl _, .inl rfl⟩
    | some b =>
      have hgains := gains_of_declares hdeclares
      exact ⟨hgains.keeps, .inr hgains⟩

end PredictiveParsing.Cminus
