import PredictiveParsing.Proofs.Cminus.Checks
import PredictiveParsing.Proofs.Cminus.Represents

/-!
# What each action decides

The judgement of an action that may complain decides one of the static rules, when the pool
represents what was declared so far and the nodes around have the attributes that the action reads.
-/

namespace PredictiveParsing.Cminus

variable {s : Site} {env : Environment} {ctx : Context} {function name text : String}
  {ty : ValueType} {width : Nat}

theorem Site.identifier_eq (hid : s.own.id = some name) : s.identifier = .ok name := by
  rw [identifier, hid]
  rfl

theorem Site.child_eq {i : Nat} {a : Attributes} (h : s.child? i = some a) : s.child i = .ok a := by
  rw [child, h]
  rfl

theorem Site.sibling_eq {back : Nat} {a : Attributes} (h : s.sibling? back = some a) :
    s.sibling back = .ok a := by
  rw [sibling, h]
  rfl

theorem textOf_eq {a : Attributes} (h : a.lexical = some text) : textOf a = .ok text := by
  rw [textOf, h]
  rfl

/-- Going on from a result. -/
theorem ok_bind {β γ : Type} (b : β) (f : β → Except Complaint γ) : (Except.ok b >>= f) = f b := rfl

/-! ## Expressions -/

theorem isVisible_iff (h : Inside s.pool function ctx) (hf : s.function? = some function)
    (name : String) : s.isVisible name = true ↔ ctx.Sees name := by
  obtain ⟨view, hview, houter, hlocals⟩ := h.view
  have hlookup : s.isVisible name = (view.lookup name).isSome := by
    rw [Site.isVisible, hf, Option.bind_some, hview]
  have hglobals := h.outer.globals.isSome_query_iff name
  rw [hlookup, ScopeView.lookup, Context.Sees, ← hlocals.isSome_query_iff, ← hglobals, houter]
  cases view.inner.table.query name with
  | none => simp
  | some symbol => simp

theorem decides_resolveVariable (h : Inside s.pool function ctx) (hf : s.function? = some function)
    (hid : s.own.id = some name) :
    Decides (ctx.Sees name) (· = ⟨{ s.own with ty := some .int }, none⟩)
      (Action.resolveVariable.judge s) := by
  rw [← isVisible_iff h hf, Action.judge, Site.identifier_eq hid, ok_bind]
  cases s.isVisible name with
  | true => exact .ok rfl rfl
  | false => exact Bool.false_ne_true

theorem decides_resolveCall (h : Represents s.pool env) (hid : s.own.id = some name) :
    Decides ((env.header? name).isSome)
      (fun change => ∃ header, env.header? name = some header ∧
        change = ⟨{ s.own with ty := some header.returns }, none⟩)
      (Action.resolveCall.judge s) := by
  rw [← h.calledFunction?_eq, Action.judge, Site.identifier_eq hid, ok_bind]
  cases calledFunction? s.pool name with
  | none => exact Bool.false_ne_true
  | some entry => exact .ok rfl ⟨_, rfl, rfl⟩

theorem decides_checkCall (h : Represents s.pool env) (hid : s.own.id = some name)
    {header : Header} (hheader : env.header? name = some header) {args : Attributes} {n : Nat}
    (hargs : s.child? 1 = some args) (hlength : args.length = some n) :
    Decides (header.parameters = n) (· = ⟨{ s.own with length := some n }, none⟩)
      (Action.checkCall.judge s) := by
  rw [← h.calledFunction?_eq] at hheader
  obtain ⟨⟨returns, params⟩, hentry, rfl⟩ := Option.map_eq_some_iff.mp hheader
  have hneed : need .callTarget (calledFunction? s.pool name) = .ok (returns, params) := by
    rw [hentry]
    rfl
  rw [Action.judge, checkCall, Site.identifier_eq hid, ok_bind, Site.child_eq hargs, ok_bind, hneed,
    ok_bind, hlength]
  by_cases hn : params.length = n
  · subst hn
    simp [Decides, pure, Except.pure]
  · have hne : n ≠ params.length := fun he => hn he.symm
    simp [Decides, refuse, hne, hn, bind, Except.bind]

theorem decides_requireValue (hid : s.own.id = some name) {child : Attributes}
    (hchild : s.child? 0 = some child) (hty : child.ty = some ty) :
    Decides (ty ≠ .void) (· = ⟨{ s.own with ty := some ty }, none⟩)
      (Action.requireValue.judge s) := by
  rw [Action.judge, requireValue, Site.child_eq hchild, ok_bind, hty]
  by_cases hv : ty = .void
  · rw [hv, if_pos rfl, Site.identifier_eq hid, ok_bind]
    exact fun h => h rfl
  · have hne : ¬ some ty = some ValueType.void := fun h => hv (Option.some.inj h)
    rw [if_neg hne]
    exact .ok hv rfl

theorem decides_literalValue {child : Attributes} (hchild : s.child? 0 = some child)
    (htext : child.lexical = some text) :
    Decides (integer? text ≠ none) (·.binding = none) (Action.literalValue.judge s) := by
  rw [Action.judge, Site.child_eq hchild, ok_bind, textOf_eq htext, ok_bind]
  cases integer? text with
  | none => exact fun h => h rfl
  | some n => exact .ok (Option.some_ne_none n) rfl

theorem decides_operator {child : Attributes} (hchild : s.child? 0 = some child)
    (htext : child.lexical = some text) :
    Decides True (·.binding = none) (Action.operator.judge s) := by
  rw [Action.judge, Site.child_eq hchild, ok_bind, textOf_eq htext, ok_bind]
  exact .ok trivial rfl

theorem decides_argsFrom {i n : Nat} {child : Attributes} (hchild : s.child? i = some child)
    (hlength : child.length = some n) :
    Decides True (· = ⟨{ s.own with length := some n }, none⟩) ((Action.argsFrom i).judge s) := by
  rw [Action.judge, Site.child_eq hchild, ok_bind, hlength]
  exact .ok trivial rfl

theorem decides_argsPrepend {i n : Nat} {child : Attributes} (hchild : s.child? i = some child)
    (hlength : child.length = some n) :
    Decides True (· = ⟨{ s.own with length := some (n + 1) }, none⟩)
      ((Action.argsPrepend i).judge s) := by
  rw [Action.judge, Site.child_eq hchild, ok_bind, hlength]
  exact .ok trivial rfl

/-! ## Statements -/

theorem returned_eq {keyword : Attributes} (hkeyword : s.sibling? 1 = some keyword)
    (hf : s.function? = some function) {entry : ValueType × List ValueType}
    (hentry : calledFunction? s.pool function = some entry) :
    returned s = .ok (function, entry.1, keyword.line) := by
  rw [returned, Site.sibling_eq hkeyword, ok_bind, hf]
  show (need .functionEntry (calledFunction? s.pool function) >>= _) = _
  rw [hentry]
  rfl

theorem Inside.returned_eq (h : Inside s.pool function ctx) (hf : s.function? = some function)
    {keyword : Attributes} (hkeyword : s.sibling? 1 = some keyword) :
    returned s = .ok (function, ctx.returns, keyword.line) := by
  obtain ⟨parameters, hheader⟩ := h.header
  rw [← h.outer.calledFunction?_eq] at hheader
  obtain ⟨⟨returns, params⟩, hentry, hreturns⟩ := Option.map_eq_some_iff.mp hheader
  obtain rfl : returns = ctx.returns := congrArg Header.returns hreturns
  exact Cminus.returned_eq hkeyword hf hentry

theorem decides_returnNothing (h : Inside s.pool function ctx) (hf : s.function? = some function)
    {keyword : Attributes} (hkeyword : s.sibling? 1 = some keyword) :
    Decides (ctx.returns = .void) (· = ⟨s.own, none⟩) (Action.returnNothing.judge s) := by
  rw [Action.judge, h.returned_eq hf hkeyword, ok_bind]
  by_cases hv : ctx.returns = .void
  · simp [Decides, hv, pure, Except.pure]
  · simp [Decides, refuse, hv, bind, Except.bind]

theorem decides_returnValue (h : Inside s.pool function ctx) (hf : s.function? = some function)
    {keyword : Attributes} (hkeyword : s.sibling? 1 = some keyword) :
    Decides (ctx.returns ≠ .void) (· = ⟨s.own, none⟩) (Action.returnValue.judge s) := by
  rw [Action.judge, h.returned_eq hf hkeyword, ok_bind]
  by_cases hv : ctx.returns = .void
  · simp [Decides, refuse, hv, bind, Except.bind]
  · simp [Decides, hv, pure, Except.pure]

/-! ## Declarations -/

theorem decides_typeFromKeyword {keyword : Attributes} (hkeyword : s.child? 0 = some keyword)
    (htext : keyword.lexical = some text) :
    Decides ((ValueType.ofKeyword? text).isSome)
      (fun change => ∃ ty, ValueType.ofKeyword? text = some ty ∧
        change = ⟨{ s.own with ty := some ty }, none⟩)
      (Action.typeFromKeyword.judge s) := by
  rw [Action.judge, Site.child_eq hkeyword, ok_bind, textOf_eq htext, ok_bind]
  cases ValueType.ofKeyword? text with
  | none => exact Bool.false_ne_true
  | some ty => exact .ok rfl ⟨ty, rfl, rfl⟩

theorem decides_openFunction (h : Represents s.pool env) (hid : s.own.id = some name)
    (hty : s.own.ty = some ty) :
    Decides (¬ env.Declares name)
      (· = ⟨{ s.own with function := some name }, some (.function name ty)⟩)
      (Action.openFunction.judge s) := by
  have hneed : need .functionType s.own.ty = .ok ty := by
    rw [hty]
    rfl
  rw [Action.judge, openFunction, Site.identifier_eq hid, ok_bind, hneed, ok_bind,
    Environment.Declares, ← h.isSome_function?, ← h.globals.exist_iff]
  cases (s.pool.function? name).isSome with
  | true => simp [Decides, refuse, bind, Except.bind]
  | false =>
    cases s.pool.globals.exist name with
    | true => simp [Decides, refuse, bind, Except.bind]
    | false => simp [Decides, pure, Except.pure]

/-- What is taken in a function, as its view of the pool has it. -/
theorem Inside.exist_iff {pool : Pool} (h : Inside pool function ctx) {view : ScopeView}
    (hview : pool.view? function = some view) (name : String) :
    view.exist name = true ↔ Taken ctx.outer.globals ctx.locals name := by
  obtain ⟨view', hview', houter, hlocals⟩ := h.view
  obtain rfl := Option.some.inj (hview.symm.trans hview')
  rw [ScopeView.exist, Bool.or_eq_true, houter, h.outer.globals.exist_iff, hlocals.exist_iff, Taken]

theorem decides_declareParam (h : Inside s.pool function ctx) (hf : s.function? = some function)
    {type id subscript : Attributes} (htype : s.child? 0 = some type) (hty : type.ty = some ty)
    (hid : s.child? 1 = some id) (hname : id.lexical = some name)
    (hsubscript : s.child? 2 = some subscript) :
    Decides (ty = .int ∧ ¬ Taken ctx.outer.globals ctx.locals name)
      (·.binding = some (.param function name ty)) (Action.declareParam.judge s) := by
  obtain ⟨view, hview, -⟩ := h.view
  rw [Action.judge, declareParam, Site.child_eq htype, ok_bind, Site.child_eq hid, ok_bind,
    Site.child_eq hsubscript, ok_bind, textOf_eq hname, ok_bind, hty, hf, ← h.exist_iff hview]
  cases ty with
  | void => simp [Decides, need, refuse, bind, Except.bind]
  | int =>
    cases he : view.exist name with
    | true => simp [Decides, need, refuse, hview, he, bind, Except.bind]
    | false => simp [Decides, need, hview, he, bind, Except.bind, pure, Except.pure]

/-- Where the names are `taken` and so much storage is `used`, variables may be declared, with this
binding. -/
def Accepts (declare : Nat → Option Nat → Except Complaint Change) (ty : ValueType) (name : String)
    (taken : String → Prop) (used : Nat) (binding : Nat → Binding) : Prop :=
  ∀ width length, 0 < width →
    Decides (ty = .int ∧ ¬ taken name ∧ used + width < storageLimit)
      (·.binding = some (binding width)) (declare width length)

theorem accepts_global (h : Represents s.pool env) (hf : s.function? = none)
    (hid : s.own.id = some name) (hty : s.own.ty = some ty) :
    Accepts (declare s) ty name env.Declares (storage env.globals) (.globalVar name ty) := by
  intro width length hw
  rw [declare, Site.identifier_eq hid, ok_bind, Environment.Declares,
    ← h.globals.exist_iff, ← h.isSome_function?, ← h.globals.hasRoom_iff hw]
  cases ty with
  | void => simp [Decides, need, refuse, hty, bind, Except.bind]
  | int =>
    cases s.pool.globals.exist name with
    | true => simp [Decides, need, refuse, hty, hf, bind, Except.bind]
    | false =>
      cases (s.pool.function? name).isSome with
      | true => simp [Decides, need, refuse, hty, hf, bind, Except.bind]
      | false =>
        cases s.pool.globals.hasRoom width with
        | true => simp [Decides, need, hty, hf, bind, Except.bind, pure, Except.pure]
        | false => simp [Decides, need, refuse, hty, hf, bind, Except.bind]

theorem accepts_local (h : Inside s.pool function ctx) (hf : s.function? = some function)
    (hid : s.own.id = some name) (hty : s.own.ty = some ty) :
    Accepts (declare s) ty name (Taken ctx.outer.globals ctx.locals) (storage ctx.locals)
      (.localVar function name ty) := by
  intro width length hw
  obtain ⟨view, hview, -, hlocals⟩ := h.view
  rw [declare, Site.identifier_eq hid, ok_bind, ← h.exist_iff hview,
    ← hlocals.hasRoom_iff hw]
  cases ty with
  | void => simp [Decides, need, refuse, hty, bind, Except.bind]
  | int =>
    cases he : view.exist name with
    | true => simp [Decides, need, refuse, hty, hf, hview, he, bind, Except.bind]
    | false =>
      cases hr : view.inner.table.hasRoom width with
      | true => simp [Decides, need, hty, hf, hview, he, hr, bind, Except.bind, pure, Except.pure]
      | false => simp [Decides, need, refuse, hty, hf, hview, he, hr, bind, Except.bind]

section Accepts

variable {taken : String → Prop} {used : Nat} {binding : Nat → Binding}

theorem Accepts.decides_declareVariable
    (h : Accepts (declare s) ty name taken used binding) :
    Decides (ty = .int ∧ ¬ taken name ∧ used + intWidth < storageLimit)
      (·.binding = some (binding intWidth)) (Action.declareVariable.judge s) :=
  h intWidth none (by decide)

theorem Accepts.decides_declareArray (h : Accepts (declare s) ty name taken used binding)
    (hid : s.own.id = some name) {number : Attributes} (hnumber : s.child? 1 = some number)
    (htext : number.lexical = some text) :
    Decides (ty = .int ∧ ¬ taken name ∧ (widthOf? (some text)).isSome ∧
        used + (widthOf? (some text)).getD 0 < storageLimit)
      (fun change => ∃ width, widthOf? (some text) = some width ∧
        change.binding = some (binding width))
      (Action.declareArray.judge s) := by
  rw [Action.judge, declareArray, Site.child_eq hnumber, ok_bind, textOf_eq htext, ok_bind,
    Site.identifier_eq hid, ok_bind]
  cases hcount : count? text with
  | none => simp [Decides, refuse, widthOf?, hcount]
  | some n =>
    cases n with
    | zero => simp [Decides, refuse, widthOf?, hcount]
    | succ n =>
      have hwidth : widthOf? (some text) = some (intWidth * (n + 1)) := by
        simp [widthOf?, hcount]
      by_cases hlimit : intWidth * (n + 1) < storageLimit
      · have hpos : 0 < intWidth * (n + 1) := Nat.mul_pos (by decide) (Nat.succ_pos n)
        simp only [hlimit, if_true, hwidth]
        refine ((h _ (some (n + 1)) hpos).congr ?_).mono fun change hb => ⟨_, rfl, hb⟩
        simp
      · simp only [hlimit, if_false, hwidth]
        rintro ⟨-, -, -, hroom⟩
        exact hlimit (Nat.lt_of_le_of_lt (Nat.le_add_left _ used) hroom)

end Accepts

end PredictiveParsing.Cminus
