import PredictiveParsing.Proofs.Cminus.Bodies

/-!
# The evaluation of definitions

The evaluation of a declaration succeeds just when it is legal. Then it has made the declarations
that are written there, one after the other (`Source.bindings`), and the pool represents them.

* `Definition.checks`: one definition in the environment of those before it;
* `Source.decides_legal`: a program.
-/

namespace PredictiveParsing.Cminus

variable {rest : Forest Action} {a : Around} {slots : List (Option Action)} {pool : Pool}
  {P : Prop} {Q : List Attributes → Pool → Prop} {function : String} {ctx : Context}
  {env : Environment}

/-! ## What is declared -/

def Variable.localBinding (function : String) (v : Variable) : Binding :=
  .localVar function v.name .int v.width

def Parameter.binding (function : String) (p : Parameter) : Binding := .param function p.name .int

def Function.bindings (f : Function) : List Binding :=
  .function f.name f.returns ::
    (f.parameters.map (Parameter.binding f.name) ++ f.locals.map (Variable.localBinding f.name))

def Definition.bindings : Definition → List Binding
  | .var v => [.globalVar v.name .int v.width]
  | .function f => f.bindings

/-- The declarations of a program, in the order in which they are written. -/
def Source.bindings (source : Source) : List Binding := source.flatMap Definition.bindings

/-- The pool after declarations, one after the other. -/
def declareAll (pool : Pool) (bindings : List Binding) : Pool := bindings.foldl Pool.declare pool

theorem declareAll_append (pool : Pool) (bs cs : List Binding) :
    declareAll pool (bs ++ cs) = declareAll (declareAll pool bs) cs := List.foldl_append

/-! ## Declarators -/

theorem TypeName.checks (t : TypeName)
    (hrest : ∀ (own : Attributes) (ty : ValueType), own.ty = some ty → t.type? = some ty →
      Checks rest (a.past own) slots pool P fun later pool' => Q (own :: later) pool') :
    Checks (t.tree rest) a (none :: slots) pool (t.type?.isSome ∧ P) Q := by
  have hkind : t.kind.keyword ∈ ["int", "void", "id", "num"] := by
    cases t.kind <;> decide
  apply Form.checks_closing True (t.type?.isSome) P
    (fun children pool' => (∃ k, children = [leafAttributes k] ∧ k.text = t.text) ∧ pool' = pool)
    (fun state => (∃ ty, state.1.ty = some ty ∧ t.type? = some ty) ∧ state.2 = pool) rfl rfl
  · exact checks_leaf fun k hk => checks_nil ⟨⟨k, rfl, text_of_bare hkind hk⟩, rfl⟩
  · rintro children pool' ⟨⟨k, rfl, hk⟩, rfl⟩
    refine Decides.act ((decides_typeFromKeyword rfl (congrArg some hk)).mono ?_)
    rintro change ⟨ty, htype, rfl⟩
    exact ⟨⟨ty, rfl, htype⟩, rfl⟩
  · rintro own pool' ⟨⟨ty, hty, htype⟩, rfl⟩
    exact hrest own ty hty htype
  · rw [true_and]

/-- A declarator hands its type and its name on to what stands behind it. -/
theorem checks_declaratorTree (t : TypeName) (name : String) {last : Forest Action}
    (hlast : ∀ (type : Attributes) (ty : ValueType) (id : Token), type.ty = some ty →
      t.type? = some ty → id.text = name →
      Checks last ((a.past type).past (leafAttributes id)) slots pool P fun later pool' =>
        Q (type :: leafAttributes id :: later) pool') :
    Checks (declaratorTree t name last) a (none :: none :: slots) pool (t.type?.isSome ∧ P) Q :=
  t.checks fun type ty hty htype => checks_leaf fun id hid =>
    hlast type ty id hty htype (text_of_bare (by decide) hid)

/-! ## Variables -/

section Variable

variable {slot : Option Action} {own₀ : Attributes} {ty : ValueType} {name : String}
  {taken : String → Prop} {used : Nat} {binding : Nat → Binding}

/-- What stands behind the name of a variable declares it. -/
theorem checks_lengthTree (length : Option String)
    (hslot : act a [] slot ({}, pool) = .ok (own₀, pool)) (hid : own₀.id = some name)
    (h : ∀ children, Accepts (declare (a.site own₀ children pool)) ty name taken used binding) :
    Checks (lengthTree length) a [slot] pool
      (ty = .int ∧ ¬ taken name ∧ (widthOf? length).isSome ∧
        used + (widthOf? length).getD 0 < storageLimit)
      fun _ pool' => ∃ width, widthOf? length = some width ∧
        pool' = pool.declare (binding width) := by
  cases length with
  | none =>
    apply Form.checks_closing True
      (ty = .int ∧ ¬ taken name ∧ used + intWidth < storageLimit) True
      (fun _ pool' => pool' = pool) (fun state => state.2 = pool.declare (binding intWidth))
      hslot rfl
    · exact checks_leaf fun _ _ => checks_nil rfl
    · rintro children pool' rfl
      refine Decides.act ((h children).decides_declareVariable.mono ?_)
      intro change hb
      simp [Change.apply, hb]
    · rintro own pool' rfl
      exact checks_nil ⟨intWidth, rfl, rfl⟩
    · simp [widthOf?]
  | some text =>
    apply Form.checks_closing True
      (ty = .int ∧ ¬ taken name ∧ (widthOf? (some text)).isSome ∧
        used + (widthOf? (some text)).getD 0 < storageLimit) True
      (fun children pool' => (∃ t : Token, children[1]? = some (leafAttributes t) ∧ t.text = text) ∧
        pool' = pool)
      (fun state => ∃ width, widthOf? (some text) = some width ∧
        state.2 = pool.declare (binding width)) hslot rfl
    · exact checks_leaf fun _ _ => checks_leaf fun t ht => checks_leaf fun _ _ =>
        checks_leaf fun _ _ => checks_nil ⟨⟨t, rfl, text_of_bare (by decide) ht⟩, rfl⟩
    · rintro children pool' ⟨⟨t, hchild, ht⟩, rfl⟩
      refine Decides.act (((h children).decides_declareArray hid hchild (congrArg some ht)).mono ?_)
      rintro change ⟨width, hwidth, hb⟩
      exact ⟨width, hwidth, by simp [Change.apply, hb]⟩
    · rintro own pool' ⟨width, hwidth, rfl⟩
      exact checks_nil ⟨width, hwidth, rfl⟩
    · rw [true_and, and_true]

/-- A variable is legal where its type, its name and its length are. -/
theorem Variable.legal_iff {v : Variable} (htype : v.type.type? = some ty) :
    v.Legal taken used ↔ ty = .int ∧ ¬ taken v.name ∧ (widthOf? v.length).isSome ∧
      used + (widthOf? v.length).getD 0 < storageLimit := by
  constructor
  · rintro ⟨htype', hfresh, hmeasured, hroom⟩
    exact ⟨Option.some.inj (htype.symm.trans htype'), hfresh, hmeasured, hroom⟩
  · rintro ⟨rfl, hfresh, hmeasured, hroom⟩
    exact ⟨htype, hfresh, hmeasured, hroom⟩

theorem Variable.checks_local (h : Inside pool function ctx) (v : Variable)
    (ha : a.function? = some function)
    (hrest : ∀ pool', pool' = pool.declare (v.localBinding function) →
      Inside pool' function { ctx with locals := ctx.locals ++ [v.entry] } →
      Checks rest (a.past {}) slots pool' P fun later pool'' => Q ({} :: later) pool'') :
    Checks (v.localTree rest) a (none :: slots) pool
      (v.Legal (Taken ctx.outer.globals ctx.locals) (storage ctx.locals) ∧ P) Q := by
  apply Form.checks_plain
    (v.type.type?.isSome ∧ v.Legal (Taken ctx.outer.globals ctx.locals) (storage ctx.locals)) P
    (fun pool' => pool' = pool.declare (v.localBinding function)) rfl rfl rfl
  · refine checks_declaratorTree v.type v.name fun type ty id hty htype hid => ?_
    have hslot : act (((a.inside {}).past type).past (leafAttributes id)) []
        (some .captureDeclarator) ({}, pool) =
          .ok ({ ty := some ty, id := some v.name, line := some id.line }, pool) := by
      rw [← hty, ← hid]
      rfl
    have haccepts := fun children => accepts_local
      (s := (((a.inside {}).past type).past (leafAttributes id)).site
        { ty := some ty, id := some v.name, line := some id.line } children pool) h ha rfl rfl
    rw [Variable.legal_iff htype]
    refine (checks_lengthTree v.length hslot rfl haccepts).keep.mono ?_
    rintro _ pool' ⟨⟨rfl, -⟩, width, hwidth, rfl⟩
    rw [localBinding, Variable.width, hwidth, Option.getD_some]
  · rintro pool' rfl
    exact hrest _ rfl (h.withLocal v.name .int v.width)
  · constructor
    · rintro ⟨⟨-, hv⟩, hP⟩
      exact ⟨hv, hP⟩
    · rintro ⟨hv, hP⟩
      exact ⟨⟨Option.isSome_of_eq_some hv.type, hv⟩, hP⟩

end Variable

/-! ## Parameters -/

theorem Parameter.legal_iff {p : Parameter} {ty : ValueType} (htype : p.type.type? = some ty)
    {taken : String → Prop} : p.Legal taken ↔ ty = .int ∧ ¬ taken p.name := by
  constructor
  · rintro ⟨htype', hfresh⟩
    exact ⟨Option.some.inj (htype.symm.trans htype'), hfresh⟩
  · rintro ⟨rfl, hfresh⟩
    exact ⟨htype, hfresh⟩

theorem checks_subscriptTree (isArray : Bool) :
    Checks (subscriptTree isArray) a [none] pool True fun children pool' =>
      (∃ own, children = [own]) ∧ pool' = pool := by
  cases isArray with
  | true =>
    apply Form.checks_closing True True True (fun _ pool' => pool' = pool)
      (fun state => state.2 = pool) rfl rfl
    · exact checks_leaf fun _ _ => checks_leaf fun _ _ => checks_nil rfl
    · rintro children pool' rfl
      exact .ok trivial rfl
    · rintro own pool' rfl
      exact checks_nil ⟨⟨own, rfl⟩, rfl⟩
    · simp
  | false =>
    apply Form.checks_closing True True True (fun _ pool' => pool' = pool)
      (fun state => state.2 = pool) rfl rfl
    · exact checks_nil rfl
    · rintro children pool' rfl
      exact .ok trivial rfl
    · rintro own pool' rfl
      exact checks_nil ⟨⟨own, rfl⟩, rfl⟩
    · simp

section Parameters

variable {returns : ValueType} {n : Nat} {declared : List (String × Nat)}

/-- The function's context while its parameters are declared. -/
def Opening (pool : Pool) (env : Environment) (function : String) (returns : ValueType) (n : Nat)
    (declared : List (String × Nat)) : Prop :=
  env.header? function = none ∧
    Inside pool function ⟨env.withFunction function ⟨returns, n⟩, returns, declared⟩

theorem Parameter.checks (h : Opening pool env function returns n declared) (p : Parameter)
    (ha : a.function? = some function)
    (hrest : ∀ own pool', pool' = pool.declare (p.binding function) →
      Opening pool' env function returns (n + 1) (declared ++ [p.entry]) →
      Checks rest (a.past own) slots pool' P fun later pool'' => Q (own :: later) pool'') :
    Checks (p.tree rest) a (none :: slots) pool (p.Legal (Taken env.globals declared) ∧ P) Q := by
  apply Form.checks_closing (p.type.type?.isSome ∧ True) (p.Legal (Taken env.globals declared)) P
    (fun children pool' => (∃ type ty id subscript,
      children = [type, leafAttributes id, subscript] ∧
        type.ty = some ty ∧ p.type.type? = some ty ∧ id.text = p.name) ∧ pool' = pool)
    (fun state => state.2 = pool.declare (p.binding function)) rfl rfl
  · refine checks_declaratorTree p.type p.name fun type ty id hty htype hid => ?_
    refine (checks_subscriptTree p.isArray).mono ?_
    rintro children pool' ⟨⟨subscript, rfl⟩, rfl⟩
    exact ⟨⟨type, ty, id, subscript, rfl, hty, htype, hid⟩, rfl⟩
  · rintro children pool' ⟨⟨type, ty, id, subscript, rfl, hty, htype, hid⟩, rfl⟩
    rw [Parameter.legal_iff htype]
    have hdecides := decides_declareParam
      (s := a.site {} [type, leafAttributes id, subscript] pool') h.2 ha rfl hty rfl
      (congrArg some hid) rfl
    refine Decides.act (hdecides.keep.mono ?_)
    rintro change ⟨⟨rfl, -⟩, hb⟩
    simp [Change.apply, hb, binding]
  · rintro own pool' rfl
    exact hrest own _ rfl ⟨h.1, h.2.withParameter h.1 p.name .int⟩
  · constructor
    · rintro ⟨-, hp, hP⟩
      exact ⟨hp, hP⟩
    · rintro ⟨hp, hP⟩
      exact ⟨⟨Option.isSome_of_eq_some hp.type, trivial⟩, hp, hP⟩

theorem checks_moreParametersTree (ps : List Parameter)
    (h : Opening pool env function returns n declared) (ha : a.function? = some function)
    (hrest : ∀ own pool', pool' = declareAll pool (ps.map (Parameter.binding function)) →
      Opening pool' env function returns (n + ps.length) (declared ++ ps.map Parameter.entry) →
      Checks rest (a.past own) slots pool' P fun later pool'' => Q (own :: later) pool'') :
    Checks (moreParametersTree ps rest) a (none :: slots) pool
      (LegalParameters env.globals declared ps ∧ P) Q := by
  induction ps generalizing rest a slots pool P Q n declared with
  | nil =>
    rw [LegalParameters, true_and]
    refine Form.checks_empty rfl rfl (hrest {} pool rfl ?_)
    simpa using h
  | cons p ps ih =>
    have htail : n + 1 + ps.length = n + (p :: ps).length := by
      rw [List.length_cons]
      omega
    have hentries : declared ++ [p.entry] ++ ps.map Parameter.entry =
        declared ++ (p :: ps).map Parameter.entry := by simp
    refine Form.checks_plain (LegalParameters env.globals declared (p :: ps) ∧ True) P
      (fun pool' => pool' = declareAll pool ((p :: ps).map (Parameter.binding function)) ∧
        Opening pool' env function returns (n + (p :: ps).length)
          (declared ++ (p :: ps).map Parameter.entry)) rfl rfl rfl ?_
      (fun pool' h' => hrest {} pool' h'.1 h'.2) (by rw [and_true])
    rw [LegalParameters, and_assoc]
    refine checks_leaf fun _ _ => p.checks h ha fun own pool' hp h' =>
      ih h' ha fun _ pool'' hps h'' => ?_
    rw [htail, hentries] at h''
    exact checks_nil ⟨by rw [hps, hp]; rfl, h''⟩

theorem checks_parametersTree (ps : List Parameter)
    (h : Opening pool env function returns 0 []) (ha : a.function? = some function)
    (hrest : ∀ pool', pool' = declareAll pool (ps.map (Parameter.binding function)) →
      Opening pool' env function returns ps.length (ps.map Parameter.entry) →
      Checks rest (a.past {}) slots pool' P fun later pool'' => Q ({} :: later) pool'') :
    Checks (parametersTree ps rest) a (none :: slots) pool
      (LegalParameters env.globals [] ps ∧ P) Q := by
  cases ps with
  | nil =>
    rw [LegalParameters, true_and]
    exact Form.checks_empty rfl rfl (hrest pool rfl h)
  | cons p ps =>
    refine Form.checks_plain (LegalParameters env.globals [] (p :: ps) ∧ True) P
      (fun pool' => pool' = declareAll pool ((p :: ps).map (Parameter.binding function)) ∧
        Opening pool' env function returns (p :: ps).length ((p :: ps).map Parameter.entry))
      rfl rfl rfl ?_ (fun pool' h' => hrest pool' h'.1 h'.2) (by rw [and_true])
    refine Form.checks_plain (LegalParameters env.globals [] (p :: ps) ∧ True) True
      (fun pool' => pool' = declareAll pool ((p :: ps).map (Parameter.binding function)) ∧
        Opening pool' env function returns (p :: ps).length ((p :: ps).map Parameter.entry))
      rfl rfl rfl ?_ (fun _ h' => checks_nil h') (by rw [and_true])
    rw [LegalParameters, and_assoc]
    refine p.checks h ha fun own pool' hp h' =>
      checks_moreParametersTree ps h' ha fun _ pool'' hps h'' => ?_
    rw [Nat.zero_add, Nat.add_comm] at h''
    exact checks_nil ⟨by rw [hps, hp]; rfl, h''⟩

end Parameters

/-! ## Bodies -/

theorem checks_localsTree (vs : List Variable) (h : Inside pool function ctx)
    (ha : a.function? = some function)
    (hrest : ∀ pool', pool' = declareAll pool (vs.map (Variable.localBinding function)) →
      Inside pool' function { ctx with locals := ctx.locals ++ vs.map Variable.entry } →
      Checks rest (a.past {}) slots pool' P fun later pool'' => Q ({} :: later) pool'') :
    Checks (localsTree vs rest) a (none :: slots) pool
      (LegalLocals ctx.outer.globals ctx.locals vs ∧ P) Q := by
  induction vs generalizing rest a slots pool P Q ctx with
  | nil =>
    rw [LegalLocals, true_and]
    refine Form.checks_empty rfl rfl (hrest pool rfl ?_)
    simpa using h
  | cons v vs ih =>
    refine Form.checks_plain (LegalLocals ctx.outer.globals ctx.locals (v :: vs) ∧ True) P
      (fun pool' => pool' = declareAll pool ((v :: vs).map (Variable.localBinding function)) ∧
        Inside pool' function { ctx with locals := ctx.locals ++ (v :: vs).map Variable.entry })
      rfl rfl rfl ?_ (fun pool' h' => hrest pool' h'.1 h'.2) (by rw [and_true])
    rw [LegalLocals, and_assoc]
    refine v.checks_local h ha fun pool' hv h' => ih h' ha fun pool'' hvs h'' => ?_
    simp only [List.append_assoc, List.singleton_append] at h''
    exact checks_nil ⟨by rw [hvs, hv]; rfl, h''⟩

theorem checks_blockTree (locals : List Variable) (body : Phrase .statements)
    (h : Inside pool function ctx) (ha : a.function? = some function) :
    Checks (blockTree locals body) a [none] pool
      (LegalLocals ctx.outer.globals ctx.locals locals ∧
        body.Legal { ctx with locals := ctx.locals ++ locals.map Variable.entry })
      fun _ pool' => pool' = declareAll pool (locals.map (Variable.localBinding function)) ∧
        Represents pool' ctx.outer := by
  refine Form.checks_plain (LegalLocals ctx.outer.globals ctx.locals locals ∧
      body.Legal { ctx with locals := ctx.locals ++ locals.map Variable.entry } ∧ True) True
    (fun pool' => pool' = declareAll pool (locals.map (Variable.localBinding function)) ∧
      Represents pool' ctx.outer) rfl rfl rfl ?_ (fun _ h' => checks_nil h') (by simp)
  refine checks_leaf fun _ _ => checks_localsTree locals h ha fun pool' hlocals h' => ?_
  refine body.checks h' ha fun _ _ => checks_leaf fun _ _ => checks_nil ⟨hlocals, h'.outer⟩

/-! ## Definitions -/

/-- A definition hands its type and its name on, through a node of its own. -/
theorem checks_defineTree (t : TypeName) (name : String) {f : Form}
    (hopening : f.production.opening = none) (hclosing : f.production.closing = none)
    (hslots : f.production.slots = [some .inherit]) {below : Forest Action} {L : Prop}
    {R : Pool → Prop} (ha : a.function? = none)
    (hbelow : ∀ (a : Around) (parent : Attributes) (ty : ValueType), t.type? = some ty →
      a.function? = none → parent.function = none → parent.ty = some ty → parent.id = some name →
      Checks below (a.inside parent) [some .inherit] pool L fun _ pool' => R pool')
    (hrest : ∀ pool', R pool' →
      Checks rest (a.past {}) slots pool' P fun later pool'' => Q ({} :: later) pool'') :
    Checks (Form.define.tree (declaratorTree t name (f.tree below .nil)) rest) a (none :: slots)
      pool ((t.type?.isSome ∧ L) ∧ P) Q := by
  refine Form.checks_plain (t.type?.isSome ∧ L ∧ True) P R rfl rfl rfl ?_ hrest (by rw [and_true])
  refine checks_declaratorTree t name fun type ty id hty htype hid => ?_
  have hslot : act (((a.inside {}).past type).past (leafAttributes id)) []
      (some .captureDeclarator) ({}, pool) =
        .ok ({ ty := some ty, id := some name, line := some id.line }, pool) := by
    rw [← hty, ← hid]
    rfl
  refine Form.checks_plain L True R hslot hopening hclosing ?_ (fun _ h' => checks_nil h') Iff.rfl
  rw [hslots]
  exact hbelow _ _ ty htype ha rfl rfl rfl

theorem Variable.checks_global (h : Represents pool env) (v : Variable) (ha : a.function? = none)
    (hrest : ∀ pool', pool' = declareAll pool (Definition.var v).bindings →
      Represents pool' (env.withVariable v.name v.width) →
      Checks rest (a.past {}) slots pool' P fun later pool'' => Q ({} :: later) pool'') :
    Checks ((Definition.var v).tree rest) a (none :: slots) pool
      (v.Legal env.Declares (storage env.globals) ∧ P) Q := by
  refine Checks.congr (checks_defineTree (P := P) (L := v.Legal env.Declares (storage env.globals))
    (R := fun pool' => pool' = declareAll pool (Definition.var v).bindings)
    v.type v.name rfl rfl rfl ha ?_ ?_) ?_
  · intro a parent ty htype ha hfunction hty hid
    have hslot : act (a.inside parent) [] (some .inherit) ({}, pool) =
        .ok ({ ty := some ty, id := some v.name, line := parent.line }, pool) := by
      rw [← hty, ← hid]
      rfl
    have haccepts := fun children => accepts_global
      (s := (a.inside parent).site { ty := some ty, id := some v.name, line := parent.line }
        children pool) h (by
          show parent.function.or a.function? = none
          rw [hfunction, ha, Option.none_or]) rfl rfl
    rw [Variable.legal_iff htype]
    refine (checks_lengthTree v.length hslot rfl haccepts).keep.mono ?_
    rintro _ pool' ⟨⟨rfl, -⟩, width, hwidth, rfl⟩
    rw [Definition.bindings, Variable.width, hwidth, Option.getD_some]
    rfl
  · rintro pool' rfl
    exact hrest _ rfl (h.withVariable v.name .int v.width)
  · constructor
    · rintro ⟨⟨-, hv⟩, hP⟩
      exact ⟨hv, hP⟩
    · rintro ⟨hv, hP⟩
      exact ⟨⟨Option.isSome_of_eq_some hv.type, hv⟩, hP⟩

theorem Function.checks (h : Represents pool env) (f : Function) (ha : a.function? = none)
    (hrest : ∀ pool', pool' = declareAll pool f.bindings → Represents pool' (f.header env) →
      Checks rest (a.past {}) slots pool' P fun later pool'' => Q ({} :: later) pool'') :
    Checks ((Definition.function f).tree rest) a (none :: slots) pool (f.Legal env ∧ P) Q := by
  have hlegal : f.Legal env ↔ f.type.type?.isSome ∧ ¬ env.Declares f.name ∧
      LegalParameters env.globals [] f.parameters ∧
      LegalLocals env.globals (f.parameters.map Parameter.entry) f.locals ∧
      f.body.Legal ⟨f.header env, f.returns, f.entries⟩ :=
    ⟨fun h => ⟨h.type, h.fresh, h.parameters, h.locals, h.body⟩,
      fun ⟨h₁, h₂, h₃, h₄, h₅⟩ => ⟨h₁, h₂, h₃, h₄, h₅⟩⟩
  rw [hlegal]
  refine checks_defineTree
    (R := fun pool' => pool' = declareAll pool f.bindings ∧ Represents pool' (f.header env))
    f.type f.name rfl rfl rfl ha ?_ fun pool' h' => hrest pool' h'.1 h'.2
  intro a parent ty htype ha hfunction hty hid
  have hslot : act (a.inside parent) [] (some .inherit) ({}, pool) =
      .ok ({ ty := some ty, id := some f.name, line := parent.line }, pool) := by
    rw [← hty, ← hid]
    rfl
  have hreturns : f.returns = ty := by
    rw [Function.returns, htype, Option.getD_some]
  apply Form.checks_opening (¬ env.Declares f.name)
    (LegalParameters env.globals [] f.parameters ∧
      LegalLocals env.globals (f.parameters.map Parameter.entry) f.locals ∧
      f.body.Legal ⟨f.header env, f.returns, f.entries⟩) True
    (fun state => state.1.function = some f.name ∧
      state.2 = pool.declare (.function f.name f.returns) ∧
      Opening state.2 env f.name f.returns 0 [])
    (fun _ pool' => pool' = declareAll pool f.bindings ∧ Represents pool' (f.header env)) hslot rfl
  · have hdecides := (decides_openFunction
      (s := (a.inside parent).site { ty := some ty, id := some f.name, line := parent.line } []
        pool) h rfl rfl).keep
    refine Decides.act (hdecides.mono ?_)
    rintro change ⟨hfresh, rfl⟩
    have hnone : env.header? f.name = none := by
      simpa using fun hsome => hfresh (.inr hsome)
    exact ⟨rfl, hreturns ▸ rfl, hnone, hreturns ▸ h.inside hnone ty⟩
  · rintro own pool₁ ⟨hown, hopened, hopening⟩
    have hfunction' : ((a.inside parent).inside own).function? = some f.name := by
      have hown' : own.function = some f.name := hown
      rw [Around.inside, hown', Option.some_or]
    refine checks_leaf fun _ _ => checks_parametersTree f.parameters hopening hfunction'
      fun pool₂ hparameters h' => checks_leaf fun _ _ => ?_
    refine (checks_blockTree f.locals f.body h'.2 ?_).mono ?_
    · exact hfunction'
    rintro _ pool₃ ⟨hlocals, hrepresents⟩
    refine ⟨?_, hrepresents⟩
    have hopened' : pool₁ = pool.declare (.function f.name f.returns) := hopened
    rw [hlocals, hparameters, hopened', ← declareAll_append]
    rfl
  · exact fun _ _ h' => checks_nil h'
  · rw [and_true]

/-- A definition is legal, and the pool represents the environment behind it. -/
theorem Definition.checks (h : Represents pool env) (d : Definition) (ha : a.function? = none)
    (hrest : ∀ pool', pool' = declareAll pool d.bindings → Represents pool' (d.after env) →
      Checks rest (a.past {}) slots pool' P fun later pool'' => Q ({} :: later) pool'') :
    Checks (d.tree rest) a (none :: slots) pool (d.Legal env ∧ P) Q := by
  cases d with
  | var v => exact v.checks_global h ha hrest
  | function f => exact f.checks h ha hrest

theorem checks_definitionsTree (source : Source) (h : Represents pool env)
    (ha : a.function? = none) :
    Checks (definitionsTree source .nil) a [none] pool (LegalIn env source) fun _ pool' =>
      pool' = declareAll pool source.bindings := by
  induction source generalizing a pool env with
  | nil => exact Form.checks_empty rfl rfl (checks_nil rfl)
  | cons d ds ih =>
    refine Form.checks_plain (LegalIn env (d :: ds)) True
      (fun pool' => pool' = declareAll pool (Source.bindings (d :: ds))) rfl rfl rfl ?_
      (fun _ h' => checks_nil h') (by rw [and_true])
    refine d.checks h ha fun pool₁ hd h' => (ih h' ?_).mono ?_
    · exact ha
    rintro _ pool₂ hds
    rw [hds, hd, ← declareAll_append]
    rfl

/-- The evaluation of a derivation tree of a program decides whether the program is legal, and has
then declared what is written in it. -/
theorem Source.decides_legal (source : Source) {F : Forest Action}
    (hF : F.map Token.bare = source.tree) :
    Decides source.Legal (fun r => r.2 = declareAll Pool.initial source.bindings)
      (eval F {} [none] Pool.initial) := by
  have hprogram : Checks source.tree {} [none] Pool.initial source.Legal fun _ pool' =>
      pool' = declareAll Pool.initial source.bindings := by
    refine Form.checks_plain source.Legal True
      (fun pool' => pool' = declareAll Pool.initial source.bindings) rfl rfl rfl ?_
      (fun _ h' => checks_nil h') (by rw [and_true])
    exact checks_definitionsTree source represents_initial rfl
  exact hprogram F hF

end PredictiveParsing.Cminus
