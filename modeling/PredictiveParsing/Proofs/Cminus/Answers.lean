import PredictiveParsing.Proofs.Cminus.Judgements
import PredictiveParsing.Proofs.Symbols.Sound

/-!
# What an action may complain about

An action whose node was handed what it reads does its work, or finds a fault of the program on the
line of a token that was taken (`Answers`). What it declares keeps the pool sound and the function
around it open.
-/

namespace PredictiveParsing

/-- A fault of a program, rather than of the tree in which it was found. -/
def SemanticFault.OfProgram : SemanticFault → Prop
  | malformed _ => False
  | strayReturn => False
  | stated _ => False
  | _ => True

namespace Cminus

/-- The line is that of one of these tokens. -/
def Lined (seen : List Token) (line : Option Nat) : Prop := ∃ token ∈ seen, line = some token.line

/-- When these tokens were taken, a program may fail so: a token fits nowhere, or there is a fault on
the line of one of them. -/
def Blamed (seen : List Token) : Failure → Prop
  | .unexpected _ _ => True
  | .semantic fault line => fault.OfProgram ∧ Lined seen line
  | _ => False

/-- The computation has a result with `Q`, or complains about the program. -/
def Answers {β : Type} (seen : List Token) (x : Except Complaint β) (Q : β → Prop) : Prop :=
  match x with
  | .ok b => Q b
  | .error complaint => Blamed seen complaint.failure

variable {seen : List Token} {line : Option Nat}

theorem lined_append (h : Lined seen line) (more : List Token) : Lined (seen ++ more) line := by
  obtain ⟨token, htoken, hline⟩ := h
  exact ⟨token, List.mem_append_left more htoken, hline⟩

theorem blamed_append {f : Failure} (h : Blamed seen f) (more : List Token) :
    Blamed (seen ++ more) f := by
  cases f with
  | unexpected => exact h
  | semantic fault line => exact ⟨h.1, lined_append h.2 more⟩
  | grammar => exact h
  | arity => exact h

section Answers

variable {β : Type} {x : Except Complaint β} {Q : β → Prop} {fault : SemanticFault}

theorem answers_refuse (hfault : fault.OfProgram) (hline : Lined seen line) :
    Answers seen (refuse fault line) Q := ⟨hfault, hline⟩

/-- Complain if `R`, else go on. -/
theorem answers_unless {R : Prop} [Decidable R] {f : Unit → Except Complaint β}
    (hfault : fault.OfProgram) (hline : Lined seen line) (hf : ¬ R → Answers seen (f ()) Q) :
    Answers seen (if R then refuse fault line >>= f else f ()) Q := by
  by_cases h : R
  · rw [if_pos h]
    exact answers_refuse hfault hline
  · rw [if_neg h]
    exact hf h

end Answers

/-- The change declares nothing and leaves the function that is named at the node. -/
def Quiet (s : Site) (change : Change) : Prop :=
  change.binding = none ∧ change.attrs.function = s.own.function

variable {s : Site} {name function : String} {ty : ValueType}

/-- What is there is not missed. -/
theorem answers_need {β γ : Type} {missing : Missing} {o : Option β} {b : β}
    {f : β → Except Complaint γ} {Q : γ → Prop} (h : o = some b) (hf : Answers seen (f b) Q) :
    Answers seen (need missing o >>= f) Q := by
  rw [h]
  exact hf

/-! ## Expressions -/

theorem answers_resolveVariable (hid : s.own.id = some name) (hline : Lined seen s.own.line) :
    Answers seen (Action.resolveVariable.judge s) (Quiet s) := by
  rw [Action.judge, Site.identifier_eq hid, ok_bind]
  exact answers_unless trivial hline fun _ => ⟨rfl, rfl⟩

theorem answers_resolveCall (hid : s.own.id = some name) (hline : Lined seen s.own.line) :
    Answers seen (Action.resolveCall.judge s) fun change =>
      ∃ returns params, calledFunction? s.pool name = some (returns, params) ∧
        change = ⟨{ s.own with ty := some returns }, none⟩ := by
  rw [Action.judge, Site.identifier_eq hid, ok_bind]
  cases calledFunction? s.pool name with
  | none => exact answers_refuse trivial hline
  | some entry => exact ⟨entry.1, entry.2, rfl, rfl⟩

theorem answers_checkCall (hid : s.own.id = some name) (hline : Lined seen s.own.line)
    {args : Attributes} (hargs : s.child? 1 = some args) {entry : ValueType × List ValueType}
    (hentry : calledFunction? s.pool name = some entry) :
    Answers seen (Action.checkCall.judge s) (Quiet s) := by
  rw [Action.judge, checkCall, Site.identifier_eq hid, ok_bind, Site.child_eq hargs, ok_bind]
  exact answers_need hentry (answers_unless trivial hline fun _ => ⟨rfl, rfl⟩)

theorem answers_requireValue (hid : s.own.id = some name) (hline : Lined seen s.own.line)
    {child : Attributes} (hchild : s.child? 0 = some child) :
    Answers seen (Action.requireValue.judge s) (Quiet s) := by
  rw [Action.judge, requireValue, Site.child_eq hchild, ok_bind, Site.identifier_eq hid]
  show Answers seen (if _ then _ else _) _
  split
  · exact answers_refuse trivial hline
  · exact ⟨rfl, rfl⟩

theorem answers_argsFrom {i : Nat} {child : Attributes} (hchild : s.child? i = some child) :
    Answers seen ((Action.argsFrom i).judge s) (Quiet s) := by
  rw [Action.judge, Site.child_eq hchild]
  exact ⟨rfl, rfl⟩

theorem answers_argsPrepend {i : Nat} {child : Attributes} (hchild : s.child? i = some child) :
    Answers seen ((Action.argsPrepend i).judge s) (Quiet s) := by
  rw [Action.judge, Site.child_eq hchild]
  exact ⟨rfl, rfl⟩

theorem answers_literalValue {token : Token} (htoken : token ∈ seen)
    (hchild : s.child? 0 = some (leafAttributes token)) :
    Answers seen (Action.literalValue.judge s) (Quiet s) := by
  rw [Action.judge, Site.child_eq hchild, ok_bind, textOf_eq rfl, ok_bind]
  cases integer? token.text with
  | none => exact answers_refuse trivial ⟨token, htoken, rfl⟩
  | some n => exact ⟨rfl, rfl⟩

theorem answers_operator {token : Token} (hchild : s.child? 0 = some (leafAttributes token)) :
    Answers seen (Action.operator.judge s) (Quiet s) := by
  rw [Action.judge, Site.child_eq hchild, ok_bind, textOf_eq rfl]
  exact ⟨rfl, rfl⟩

/-! ## Returns -/

section Returned

variable {keyword : Attributes} (hkeyword : s.sibling? 1 = some keyword)
  (hline : Lined seen keyword.line) (hf : s.function? = some function)
  {entry : ValueType × List ValueType} (hentry : calledFunction? s.pool function = some entry)

include hkeyword hline hf hentry

theorem answers_returnNothing : Answers seen (Action.returnNothing.judge s) (Quiet s) := by
  rw [Action.judge, returned_eq hkeyword hf hentry, ok_bind]
  exact answers_unless trivial hline fun _ => ⟨rfl, rfl⟩

theorem answers_returnValue : Answers seen (Action.returnValue.judge s) (Quiet s) := by
  rw [Action.judge, returned_eq hkeyword hf hentry, ok_bind]
  exact answers_unless trivial hline fun _ => ⟨rfl, rfl⟩

end Returned

/-! ## Handing down -/

theorem answers_typeFromKeyword {token : Token} (htoken : token ∈ seen)
    (hchild : s.child? 0 = some (leafAttributes token)) :
    Answers seen (Action.typeFromKeyword.judge s) fun change =>
      change.binding = none ∧ change.attrs.ty.isSome := by
  rw [Action.judge, Site.child_eq hchild, ok_bind, textOf_eq rfl, ok_bind]
  cases ValueType.ofKeyword? token.text with
  | none => exact answers_refuse trivial ⟨token, htoken, rfl⟩
  | some ty => exact ⟨rfl, rfl⟩

/-! ## Declarations -/

theorem answers_openFunction (hpool : s.pool.Sound) (hid : s.own.id = some name)
    (hty : s.own.ty = some ty) (hline : Lined seen s.own.line) :
    Answers seen (Action.openFunction.judge s) fun change => change.attrs.function = some name ∧
      (change.apply s.pool).2.Sound ∧ (change.apply s.pool).2.InHeader name := by
  rw [Action.judge, openFunction, Site.identifier_eq hid, ok_bind]
  refine answers_need hty (answers_unless trivial hline fun hfree => ⟨rfl, ?_⟩)
  rw [Bool.or_eq_true, not_or, Bool.not_eq_true, Bool.not_eq_true] at hfree
  exact hpool.declareFunction hfree.2 ((SymbolTable.exist_eq_isSome_query ..).trans hfree.1) ty

theorem answers_declareParam (hpool : s.pool.Sound) (hf : s.function? = some function)
    (hheader : s.pool.InHeader function) {type subscript : Attributes} {token : Token}
    (htoken : token ∈ seen) (htype : s.child? 0 = some type) (hty : type.ty = some ty)
    (hid : s.child? 1 = some (leafAttributes token)) (hsubscript : s.child? 2 = some subscript) :
    Answers seen (Action.declareParam.judge s) fun change =>
      (change.apply s.pool).2.Sound ∧ (change.apply s.pool).2.InHeader function := by
  obtain ⟨i, scope, hopens, honly⟩ := hheader
  have hview := hpool.view?_eq hopens
  have hline : Lined seen (leafAttributes token).line := ⟨token, htoken, rfl⟩
  rw [Action.judge, declareParam, Site.child_eq htype, ok_bind, Site.child_eq hid, ok_bind,
    Site.child_eq hsubscript, ok_bind, textOf_eq rfl, ok_bind]
  refine answers_need hty (answers_unless trivial hline fun hvoid => ?_)
  refine answers_need hf (answers_need hview (answers_unless trivial hline fun hfree => ?_))
  cases ty with
  | void => exact absurd rfl hvoid
  | int =>
    refine hpool.declareParam ⟨i, scope, hopens, honly⟩ fun view hview' => ?_
    obtain rfl := Option.some.inj (hview.symm.trans hview')
    exact Bool.eq_false_of_not_eq_true hfree

/-- A variable that can be declared, of this width. -/
theorem answers_declare (hpool : s.pool.Sound) (hid : s.own.id = some name)
    (hty : s.own.ty = some ty) (hline : Lined seen s.own.line)
    (hf : ∀ f, s.function? = some f → s.pool.Opened f) {width : Nat} (hwidth : IsWords width)
    (length : Option Nat) :
    Answers seen (declare s width length) fun change => (change.apply s.pool).2.Sound ∧
      ∀ f, s.function? = some f → (change.apply s.pool).2.Opened f := by
  have hlarge : (if length.isSome then SemanticFault.arrayTooLarge name
      else .variableTooLarge name).OfProgram := by
    cases length <;> exact trivial
  rw [declare, Site.identifier_eq hid, ok_bind]
  refine answers_need hty (answers_unless trivial hline fun hvoid => ?_)
  cases ty with
  | void => exact absurd rfl hvoid
  | int =>
    cases hfunction : s.function? with
    | some function =>
      obtain ⟨i, scope, hopens⟩ := hf function hfunction
      have hview := hpool.view?_eq hopens
      refine answers_need hview (answers_unless trivial hline fun hfree => ?_)
      refine answers_unless hlarge hline fun _ => ?_
      obtain ⟨hsound, hopened⟩ := hpool.declareLocal ⟨i, scope, hopens⟩ (fun view hview' => by
        obtain rfl := Option.some.inj (hview.symm.trans hview')
        exact Bool.eq_false_of_not_eq_true hfree) hwidth
      refine ⟨hsound, ?_⟩
      rintro _ ⟨⟩
      exact hopened
    | none =>
      refine answers_unless trivial hline fun hfree => ?_
      refine answers_unless hlarge hline fun _ => ?_
      rw [Bool.or_eq_true, not_or, Bool.not_eq_true, Bool.not_eq_true] at hfree
      refine ⟨hpool.declareGlobal hfree.1
        ((SymbolTable.exist_eq_isSome_query ..).trans hfree.2) hwidth, ?_⟩
      rintro _ ⟨⟩

theorem answers_declareArray (hpool : s.pool.Sound) (hid : s.own.id = some name)
    (hty : s.own.ty = some ty) (hline : Lined seen s.own.line)
    (hf : ∀ f, s.function? = some f → s.pool.Opened f) {token : Token}
    (hchild : s.child? 1 = some (leafAttributes token)) :
    Answers seen (Action.declareArray.judge s) fun change => (change.apply s.pool).2.Sound ∧
      ∀ f, s.function? = some f → (change.apply s.pool).2.Opened f := by
  rw [Action.judge, declareArray, Site.child_eq hchild, ok_bind, textOf_eq rfl, ok_bind,
    Site.identifier_eq hid, ok_bind]
  have hbad : Answers seen (refuse (.badLength name token.text) s.own.line) fun change : Change =>
      (change.apply s.pool).2.Sound ∧
        ∀ f, s.function? = some f → (change.apply s.pool).2.Opened f := answers_refuse trivial hline
  rcases count? token.text with _ | _ | n
  · exact hbad
  · exact hbad
  · show Answers seen (if _ then _ else _) _
    split
    · exact answers_declare hpool hid hty hline hf
        ⟨Nat.mul_pos (by decide) (Nat.succ_pos n), Nat.dvd_mul_right ..⟩ _
    · exact answers_refuse trivial hline

end Cminus

end PredictiveParsing
