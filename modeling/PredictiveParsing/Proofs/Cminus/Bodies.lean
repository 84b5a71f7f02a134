import PredictiveParsing.Proofs.Cminus.Judgements

/-!
# The evaluation of function bodies

The evaluation of an expression or a statement succeeds just when it is legal (`Phrase.checks`). It
does not change the pool, and the only attribute that a phrase hands on is a number of arguments.
-/

namespace PredictiveParsing.Cminus

variable {G rest : Forest Action} {a : Around} {slots : List (Option Action)} {pool : Pool}
  {P : Prop} {Q : List Attributes → Pool → Prop} {function name : String} {ctx : Context}

/-- A list of arguments hands on their number. -/
def Phrase.Hands : {c : Category} → Phrase c → Attributes → Prop
  | .arguments, e, own => own.length = some e.count
  | .argumentTail, e, own => own.length = some e.count
  | _, _, _ => True

/-- In front of anything, and at any place inside of the function, the tree is checked for `L` and
gets attributes with `R`. -/
def PhraseChecks (tree : Forest Action → Forest Action) (pool : Pool) (function : String) (L : Prop)
    (R : Attributes → Prop) : Prop :=
  ∀ {rest : Forest Action} {a : Around} {slots : List (Option Action)} {P : Prop}
    {Q : List Attributes → Pool → Prop}, a.function? = some function →
    (∀ own, R own → Checks rest (a.past own) slots pool P fun later pool' =>
      Q (own :: later) pool') →
    Checks (tree rest) a (none :: slots) pool (L ∧ P) Q

theorem checks_operator {f : Form} (hopening : f.production.opening = none)
    (hclosing : f.production.closing = some .operator) (hslots : f.production.slots = [none])
    {i : Nat} {token : Token}
    (hrest : ∀ own, Checks rest (a.past own) slots pool P fun later pool' =>
      Q (own :: later) pool') :
    Checks (f.tree (.leaf i token .nil) rest) a (none :: slots) pool P Q := by
  apply Form.checks_closing True True P
    (fun children pool' => (∃ t, children = [leafAttributes t]) ∧ pool' = pool)
    (fun state => state.2 = pool) rfl hopening
  · rw [hslots]
    exact checks_leaf fun t _ => checks_nil ⟨⟨t, rfl⟩, rfl⟩
  · rintro children pool' ⟨⟨t, rfl⟩, hp⟩
    rw [hclosing]
    exact ((decides_operator rfl rfl).mono fun change hb => by simp [Change.apply, hb, hp]).act
  · rintro own pool' rfl
    exact hrest own
  · rw [true_and, true_and]

theorem calls_iff {header : Header} (h : ctx.outer.header? name = some header) {n : Nat}
    {returns : ValueType} :
    ctx.Calls name n returns ↔ header.returns = returns ∧ header.parameters = n := by
  rw [Context.Calls, h, Option.some.injEq, Header.mk.injEq]

/-- A call in a function body, below a node that has the name. -/
theorem checks_callTree (h : Inside pool function ctx) {args : Forest Action → Forest Action}
    {n : Nat} {L : Prop} (hargs : PhraseChecks args pool function L fun own => own.length = some n)
    (ha : a.function? = some function) {parent : Attributes} (hparent : parent.function = none)
    (hid : parent.id = some name)
    (hrest : ∀ header own, ctx.outer.header? name = some header → own.ty = some header.returns →
      Checks rest ((a.inside parent).past own) slots pool P fun later pool' =>
        Q (own :: later) pool') :
    Checks (callTree args rest) (a.inside parent) (some .inherit :: slots) pool
      ((∃ returns, ctx.Calls name n returns) ∧ L ∧ P) Q := by
  have ha' : (a.inside parent).function? = some function := by
    rw [Around.inside, hparent, Option.none_or, ha]
  -- The node takes its name from above and its type from the header.
  have hslot : act (a.inside parent) [] (some .inherit) ({}, pool) =
      .ok ({ ty := parent.ty, id := some name, line := parent.line }, pool) := by
    rw [← hid]
    rfl
  apply Form.checks ((ctx.outer.header? name).isSome) (L ∧ True)
    (∃ returns, ctx.Calls name n returns) P
    (fun state => ∃ header, ctx.outer.header? name = some header ∧
      state.1.ty = some header.returns ∧ state.1.id = some name ∧ state.1.function = none ∧
      state.2 = pool)
    (fun own children pool' => pool' = pool ∧ (∃ header, ctx.outer.header? name = some header ∧
      own.ty = some header.returns ∧ own.id = some name) ∧
      ∃ arguments, children[1]? = some arguments ∧ arguments.length = some n)
    (fun state => state.2 = pool ∧ ∃ header, ctx.outer.header? name = some header ∧
      state.1.ty = some header.returns) hslot
  · refine Decides.act ((decides_resolveCall h.outer rfl).mono ?_)
    rintro change ⟨header, hheader, rfl⟩
    exact ⟨header, hheader, rfl, rfl, rfl, rfl⟩
  · rintro own pool' ⟨header, hheader, hty, hid, hfunction, rfl⟩
    have hfunction' : ((a.inside parent).inside own).function? = some function := by
      rw [Around.inside, hfunction, Option.none_or, ha']
    exact checks_leaf fun _ _ => hargs hfunction' fun arguments hlength =>
      checks_leaf fun _ _ => checks_nil ⟨rfl, ⟨header, hheader, hty, hid⟩, arguments, rfl, hlength⟩
  · rintro own children pool' ⟨rfl, ⟨header, hheader, hty, hid⟩, arguments, hchild, hlength⟩
    have hcall : Decides (∃ returns, ctx.Calls name n returns)
        (· = ⟨{ own with length := some n }, none⟩)
        (Action.checkCall.judge ((a.inside parent).site own children pool')) := by
      refine (decides_checkCall h.outer hid hheader hchild hlength).congr ?_
      simp [calls_iff hheader]
    refine Decides.act (hcall.mono ?_)
    rintro change rfl
    exact ⟨rfl, header, hheader, hty⟩
  · rintro own pool' ⟨rfl, header, hheader, hty⟩
    exact hrest header own hheader hty
  · constructor
    · rintro ⟨-, ⟨hL, -⟩, hcall, hP⟩
      exact ⟨hcall, hL, hP⟩
    · rintro ⟨⟨returns, hcall⟩, hL, hP⟩
      exact ⟨Option.isSome_of_eq_some hcall, ⟨hL, trivial⟩, ⟨returns, hcall⟩, hP⟩

theorem text_of_bare {t : Token} {kind text : String} (hkind : kind ∈ ["int", "void", "id", "num"])
    (h : t.bare = lexeme kind text) : t.text = text := by
  have hk : t.kind = kind := congrArg Token.kind h
  have ht : (if t.kind ∈ ["int", "void", "id", "num"] then t.text else "") = text :=
    congrArg Token.text h
  rwa [hk, if_pos hkind] at ht

/-- A node behind a name takes the name over. -/
theorem act_passId (t : Token) :
    act ((a.inside {}).past (leafAttributes t)) [] (some .passId) ({}, pool) =
      .ok ({ id := some t.text, line := some t.line }, pool) := rfl

/-- A node behind a name, which uses the name as a variable. -/
theorem Form.checks_variable (h : Inside pool function ctx) {f : Form}
    (hopening : f.production.opening = some .resolveVariable)
    (hclosing : f.production.closing = none) {below : Forest Action} {L : Prop}
    (ha : a.function? = some function) {t : Token} (ht : t.bare = identifier name)
    (hbelow : ∀ a : Around, a.function? = some function →
      Checks below a f.production.slots pool L fun _ pool' => pool' = pool) :
    Checks (f.tree below .nil) ((a.inside {}).past (leafAttributes t)) [some .passId] pool
      (ctx.Sees name ∧ L) fun _ pool' => pool' = pool := by
  have hname : t.text = name := text_of_bare (by decide) ht
  apply Form.checks_opening (ctx.Sees name) L True
    (fun state => state.1.function = none ∧ state.2 = pool) (fun _ pool' => pool' = pool)
    (act_passId t) hclosing
  · rw [hopening]
    refine Decides.act ((decides_resolveVariable h ha (congrArg some hname)).mono ?_)
    rintro change rfl
    exact ⟨rfl, rfl⟩
  · rintro own pool' ⟨hfunction, rfl⟩
    refine hbelow _ ?_
    have hown : own.function = none := hfunction
    rw [Around.inside, hown, Option.none_or]
    exact ha
  · rintro own pool' rfl
    exact checks_nil rfl
  · rw [and_true]

section Trees

variable {tree tree' : Forest Action → Forest Action} {L L' : Prop} {R R' : Attributes → Prop}

/-- A statement behind its name. -/
theorem checks_namedTree {below : Forest Action} (ha : a.function? = some function)
    (hbelow : ∀ (a : Around) (t : Token), a.function? = some function → t.bare = identifier name →
      Checks below ((a.inside {}).past (leafAttributes t)) [some .passId] pool L
        fun _ pool' => pool' = pool)
    (hrest : ∀ own, Checks rest (a.past own) slots pool P fun later pool' =>
      Q (own :: later) pool') :
    Checks (namedTree name below rest) a (none :: slots) pool (L ∧ P) Q := by
  refine Form.checks_still (L ∧ True) P rfl rfl ?_ (hrest {}) (by rw [and_true])
  refine Form.checks_still L True rfl rfl ?_ (checks_nil rfl) Iff.rfl
  exact checks_leaf fun t ht => hbelow (a.inside {}) t ha ht

theorem checks_bracedTree (htree : PhraseChecks tree pool function L R)
    (ha : a.function? = some function)
    (hrest : ∀ a : Around, a.function? = some function →
      Checks rest a slots pool P fun _ pool' => pool' = pool) :
    Checks (bracedTree tree rest) a (none :: none :: none :: slots) pool (L ∧ P)
      fun _ pool' => pool' = pool :=
  checks_leaf fun _ _ => htree ha fun _ _ => checks_leaf fun _ _ => hrest _ ha

theorem checks_chooseTree (htree : PhraseChecks tree pool function L R)
    (htree' : PhraseChecks tree' pool function L' R') {last : Forest Action} {M : Prop}
    (ha : a.function? = some function)
    (hlast : ∀ a : Around, a.function? = some function →
      Checks last a [none] pool M fun _ pool' => pool' = pool)
    (hrest : ∀ own, Checks rest (a.past own) slots pool P fun later pool' =>
      Q (own :: later) pool') :
    Checks (chooseTree tree tree' last rest) a (none :: slots) pool ((L ∧ L' ∧ M) ∧ P) Q := by
  refine Form.checks_still ((L ∧ L' ∧ M) ∧ True) P rfl rfl ?_ (hrest {}) (by rw [and_true])
  refine Form.checks_still (L ∧ L' ∧ M) True rfl rfl ?_ (checks_nil rfl) Iff.rfl
  refine checks_leaf fun _ _ => checks_leaf fun _ _ => htree ha fun _ _ => checks_leaf fun _ _ => ?_
  exact checks_bracedTree htree' ha hlast

theorem checks_loopTree (htree : PhraseChecks tree pool function L R) {last : Forest Action}
    {M : Prop} (ha : a.function? = some function)
    (hlast : ∀ a : Around, a.function? = some function →
      Checks last a [none] pool M fun _ pool' => pool' = pool)
    (hrest : ∀ own, Checks rest (a.past own) slots pool P fun later pool' =>
      Q (own :: later) pool') :
    Checks (loopTree tree last rest) a (none :: slots) pool ((L ∧ M) ∧ P) Q := by
  refine Form.checks_still ((L ∧ M) ∧ True) P rfl rfl ?_ (hrest {}) (by rw [and_true])
  refine Form.checks_still (L ∧ M) True rfl rfl ?_ (checks_nil rfl) Iff.rfl
  refine checks_leaf fun _ _ => checks_leaf fun _ _ => htree ha fun _ _ => checks_leaf fun _ _ => ?_
  exact hlast _ ha

/-- A `return` finds its keyword in front of it. -/
theorem checks_returnTree {f : Form} {below : Forest Action} {action : Action} {M : Prop}
    (hopening : f.production.opening = some action) (hclosing : f.production.closing = none)
    (ha : a.function? = some function)
    (haction : ∀ s : Site, s.function? = some function → s.pool = pool →
      (∃ keyword, s.sibling? 1 = some keyword) →
      Decides M (· = ⟨s.own, none⟩) (action.judge s))
    (hbelow : ∀ a : Around, a.function? = some function →
      Checks below a f.production.slots pool L fun _ pool' => pool' = pool)
    (hrest : ∀ own, Checks rest (a.past own) slots pool P fun later pool' =>
      Q (own :: later) pool') :
    Checks (returnTree (f.tree below .nil) rest) a (none :: slots) pool ((M ∧ L) ∧ P) Q := by
  refine Form.checks_still ((M ∧ L) ∧ True) P rfl rfl ?_ (hrest {}) (by rw [and_true])
  refine Form.checks_still (M ∧ L) True rfl rfl ?_ (checks_nil rfl) Iff.rfl
  refine checks_leaf fun t _ => ?_
  apply Form.checks_opening M L True (fun state => state = ({}, pool)) (fun _ pool' => pool' = pool)
    rfl hclosing
  · rw [hopening]
    refine Decides.act ((haction _ ha rfl ⟨leafAttributes t, rfl⟩).mono ?_)
    rintro change rfl
    rfl
  · rintro own pool' ⟨⟩
    exact hbelow _ ha
  · rintro own pool' rfl
    exact checks_nil rfl
  · rw [and_true]

end Trees

theorem checks_number {text : String}
    (hrest : ∀ own, Checks rest (a.past own) slots pool P fun later pool' =>
      Q (own :: later) pool') :
    Checks (Form.number.tree (.leaf Place.num (lexeme "num" text) .nil) rest) a (none :: slots) pool
      (integer? text ≠ none ∧ P) Q := by
  apply Form.checks_closing True (integer? text ≠ none) P
    (fun children pool' => (∃ t, children = [leafAttributes t] ∧ t.text = text) ∧ pool' = pool)
    (fun state => state.2 = pool) rfl rfl
  · exact checks_leaf fun t ht => checks_nil ⟨⟨t, rfl, text_of_bare (by decide) ht⟩, rfl⟩
  · rintro children pool' ⟨⟨t, rfl, ht⟩, rfl⟩
    refine Decides.act ((decides_literalValue rfl (congrArg some ht)).mono ?_)
    intro change hb
    simp [Change.apply, hb]
  · rintro own pool' rfl
    exact hrest own
  · rw [true_and]

/-- A node that hands on a number of arguments: what `action` makes of the children. -/
theorem checks_counting {f : Form} {below : Forest Action} {action : Action} {L : Prop} {n : Nat}
    (hopening : f.production.opening = none) (hclosing : f.production.closing = some action)
    {K : List Attributes → Prop}
    (hbelow : Checks below (a.inside {}) f.production.slots pool L fun children pool' =>
      K children ∧ pool' = pool)
    (haction : ∀ (s : Site) (children : List Attributes), (∀ i, s.child? i = children[i]?) →
      K children → Decides True (· = ⟨{ s.own with length := some n }, none⟩) (action.judge s))
    (hrest : ∀ own : Attributes, own.length = some n →
      Checks rest (a.past own) slots pool P fun later pool' => Q (own :: later) pool') :
    Checks (f.tree below rest) a (none :: slots) pool (L ∧ P) Q := by
  apply Form.checks_closing L True P (fun children pool' => K children ∧ pool' = pool)
    (fun state => state.1.length = some n ∧ state.2 = pool) rfl hopening hbelow
  · rintro children pool' ⟨hK, rfl⟩
    rw [hclosing]
    refine Decides.act ((haction _ children (fun _ => rfl) hK).mono ?_)
    rintro change rfl
    exact ⟨rfl, rfl⟩
  · rintro own pool' ⟨hlength, rfl⟩
    exact hrest own hlength
  · rw [true_and]

/-- No more arguments. -/
theorem checks_noArguments {f : Form} (hopening : f.production.opening = none)
    (hclosing : f.production.closing = some .argsNone)
    (hrest : ∀ own : Attributes, own.length = some 0 →
      Checks rest (a.past own) slots pool P fun later pool' => Q (own :: later) pool') :
    Checks (f.tree .nil rest) a (none :: slots) pool (True ∧ P) Q :=
  checks_counting (K := fun _ => True) hopening hclosing (checks_nil ⟨trivial, rfl⟩)
    (fun _ _ _ _ => .ok trivial rfl) hrest

/-- The first argument and the others; the list has a node of its own. -/
theorem checks_someArguments {below : Forest Action} {L : Prop} {n : Nat}
    (ha : a.function? = some function)
    (hbelow : ∀ a : Around, a.function? = some function →
      Checks below a [none, none] pool L fun children pool' =>
        (∃ own own' : Attributes, children = [own, own'] ∧ own'.length = some n) ∧ pool' = pool)
    (hrest : ∀ own : Attributes, own.length = some (n + 1) →
      Checks rest (a.past own) slots pool P fun later pool' => Q (own :: later) pool') :
    Checks (Form.someArguments.tree (Form.argumentList.tree below .nil) rest) a (none :: slots) pool
      (L ∧ P) Q := by
  have hlist : Checks (Form.argumentList.tree below .nil) (a.inside {}) [none] pool (L ∧ True)
      fun children pool' => (∃ own : Attributes, children = [own] ∧ own.length = some (n + 1)) ∧
        pool' = pool := by
    refine checks_counting rfl rfl (hbelow _ ha) ?_ fun own hlength =>
      checks_nil ⟨⟨own, rfl, hlength⟩, rfl⟩
    rintro s children hs ⟨own, own', rfl, hlength⟩
    exact decides_argsPrepend (hs 1) hlength
  refine Checks.congr (checks_counting rfl rfl hlist ?_ hrest) (by rw [and_true])
  rintro s children hs ⟨own, rfl, hlength⟩
  exact decides_argsFrom (hs 0) hlength

/-- A call for its value, behind its name. -/
theorem checks_callFactor (h : Inside pool function ctx) {args : Forest Action → Forest Action}
    {n : Nat} {L : Prop} (hargs : PhraseChecks args pool function L fun own => own.length = some n)
    (ha : a.function? = some function) {t : Token} (ht : t.bare = identifier name) :
    Checks (Form.callFactor.tree (callTree args .nil) .nil) ((a.inside {}).past (leafAttributes t))
      [some .passId] pool (ctx.Calls name n .int ∧ L) fun _ pool' => pool' = pool := by
  have hname : t.text = name := text_of_bare (by decide) ht
  apply Form.checks_closing ((∃ returns, ctx.Calls name n returns) ∧ L ∧ True)
    (∃ header, ctx.outer.header? name = some header ∧ header.returns ≠ .void) True
    (fun children pool' => (∃ header child, ctx.outer.header? name = some header ∧
      children[0]? = some child ∧ child.ty = some header.returns) ∧ pool' = pool)
    (fun state => state.2 = pool) (act_passId t) rfl
  · exact checks_callTree h hargs ha rfl (congrArg some hname) fun header own hheader hty =>
      checks_nil ⟨⟨header, own, hheader, rfl, hty⟩, rfl⟩
  · rintro children pool' ⟨⟨header, child, hheader, hchild, hty⟩, rfl⟩
    refine Decides.act ((Decides.congr (decides_requireValue rfl hchild hty) ?_).mono ?_)
    · simp [hheader]
    · rintro change rfl
      rfl
  · rintro own pool' rfl
    exact checks_nil rfl
  · constructor
    · rintro ⟨⟨⟨returns, hcall⟩, hL, -⟩, ⟨header, hheader, hvoid⟩, -⟩
      obtain ⟨-, hn⟩ := (calls_iff hheader).mp hcall
      refine ⟨(calls_iff hheader).mpr ⟨?_, hn⟩, hL⟩
      cases hreturns : header.returns with
      | int => rfl
      | void => exact absurd hreturns hvoid
    · rintro ⟨hcall, hL⟩
      exact ⟨⟨⟨.int, hcall⟩, hL, trivial⟩, ⟨_, hcall, ValueType.noConfusion⟩, trivial⟩

/-- A call as a statement, behind its name. -/
theorem checks_invoke (h : Inside pool function ctx) {args : Forest Action → Forest Action}
    {n : Nat} {L : Prop} (hargs : PhraseChecks args pool function L fun own => own.length = some n)
    (ha : a.function? = some function) {t : Token} (ht : t.bare = identifier name) :
    Checks (Form.invoke.tree (callTree args (.leaf Place.semicolon (symbol ";") .nil)) .nil)
      ((a.inside {}).past (leafAttributes t)) [some .passId] pool
      ((∃ returns, ctx.Calls name n returns) ∧ L) fun _ pool' => pool' = pool := by
  have hname : t.text = name := text_of_bare (by decide) ht
  apply Form.checks_plain ((∃ returns, ctx.Calls name n returns) ∧ L ∧ True) True
    (fun pool' => pool' = pool) (act_passId t) rfl rfl
  · exact checks_callTree h hargs ha rfl (congrArg some hname) fun _ _ _ _ =>
      checks_leaf fun _ _ => checks_nil rfl
  · rintro pool' rfl
    exact checks_nil rfl
  · rw [and_true, and_true]

theorem Phrase.checks (h : Inside pool function ctx) {c : Category} (e : Phrase c) :
    PhraseChecks e.tree pool function (e.Legal ctx) e.Hands := by
  induction e with
  | plain s ih =>
    intro rest a slots P Q ha hrest
    refine Form.checks_still (s.Legal ctx ∧ True) P rfl rfl (ih ha fun _ _ => ?_) (hrest {} trivial)
      (by simp [Legal])
    exact Form.checks_empty rfl rfl (checks_nil rfl)
  | compare l op r ihl ihr =>
    intro rest a slots P Q ha hrest
    refine Form.checks_still (l.Legal ctx ∧ (r.Legal ctx ∧ True) ∧ True) P rfl rfl
      (ihl ha fun _ _ => ?_) (hrest {} trivial) (by simp [Legal])
    refine Form.checks_still (r.Legal ctx ∧ True) True rfl rfl
      (checks_operator rfl rfl rfl fun _ => ?_) (checks_nil rfl) Iff.rfl
    exact ihr ha fun _ _ => checks_nil rfl
  | sum t last iht ihlast =>
    intro rest a slots P Q ha hrest
    refine Form.checks_still (t.Legal ctx ∧ last.Legal ctx ∧ True) P rfl rfl
      (iht ha fun _ _ => ?_) (hrest {} trivial) (by simp [Legal])
    exact ihlast ha fun _ _ => checks_nil rfl
  | sumEnd =>
    intro rest a slots P Q _ hrest
    rw [Legal, true_and]
    exact Form.checks_empty rfl rfl (hrest {} trivial)
  | add op t last iht ihlast =>
    intro rest a slots P Q ha hrest
    refine Form.checks_still (t.Legal ctx ∧ last.Legal ctx ∧ True) P rfl rfl
      (checks_operator rfl rfl rfl fun _ => iht ha fun _ _ => ?_) (hrest {} trivial)
      (by simp [Legal])
    exact ihlast ha fun _ _ => checks_nil rfl
  | term f last ihf ihlast =>
    intro rest a slots P Q ha hrest
    refine Form.checks_still (f.Legal ctx ∧ last.Legal ctx ∧ True) P rfl rfl
      (ihf ha fun _ _ => ?_) (hrest {} trivial) (by simp [Legal])
    exact ihlast ha fun _ _ => checks_nil rfl
  | termEnd =>
    intro rest a slots P Q _ hrest
    rw [Legal, true_and]
    exact Form.checks_empty rfl rfl (hrest {} trivial)
  | multiply op f last ihf ihlast =>
    intro rest a slots P Q ha hrest
    refine Form.checks_still (f.Legal ctx ∧ last.Legal ctx ∧ True) P rfl rfl
      (checks_operator rfl rfl rfl fun _ => ihf ha fun _ _ => ?_) (hrest {} trivial)
      (by simp [Legal])
    exact ihlast ha fun _ _ => checks_nil rfl
  | group e ih =>
    intro rest a slots P Q ha hrest
    refine Form.checks_still (e.Legal ctx ∧ True) P rfl rfl
      (checks_leaf fun _ _ => ih ha fun _ _ => ?_) (hrest {} trivial) (by simp [Legal])
    exact checks_leaf fun _ _ => checks_nil rfl
  | var name =>
    intro rest a slots P Q ha hrest
    refine Form.checks_still (ctx.Sees name ∧ True) P rfl rfl (checks_leaf fun t ht => ?_)
      (hrest {} trivial) (by simp [Legal])
    exact Form.checks_variable h rfl rfl ha ht fun _ _ => checks_nil rfl
  | element name index ih =>
    intro rest a slots P Q ha hrest
    refine Form.checks_still (ctx.Sees name ∧ index.Legal ctx ∧ True) P rfl rfl
      (checks_leaf fun t ht => ?_) (hrest {} trivial) (by simp [Legal])
    refine Form.checks_variable h rfl rfl ha ht fun _ ha' => checks_leaf fun _ _ => ?_
    exact ih ha' fun _ _ => checks_leaf fun _ _ => checks_nil rfl
  | call name args ih =>
    intro rest a slots P Q ha hrest
    refine Form.checks_still (ctx.Calls name args.count .int ∧ args.Legal ctx) P rfl rfl
      (checks_leaf fun t ht => ?_) (hrest {} trivial) Iff.rfl
    exact checks_callFactor h ih ha ht
  | number text =>
    intro rest a slots P Q _ hrest
    exact checks_number fun own => hrest own trivial
  | noArguments =>
    intro rest a slots P Q _ hrest
    exact checks_noArguments rfl rfl hrest
  | arguments e last ihe ihlast =>
    intro rest a slots P Q ha hrest
    refine Checks.congr (checks_someArguments (L := e.Legal ctx ∧ last.Legal ctx ∧ True) ha
      (fun _ ha' => ihe ha' fun own _ => ihlast ha' fun own' hlength => ?_) hrest) (by simp [Legal])
    exact checks_nil ⟨⟨own, own', rfl, hlength⟩, rfl⟩
  | argumentEnd =>
    intro rest a slots P Q _ hrest
    exact checks_noArguments rfl rfl hrest
  | argument e last ihe ihlast =>
    intro rest a slots P Q ha hrest
    refine Checks.congr (checks_counting (L := e.Legal ctx ∧ last.Legal ctx ∧ True)
      (K := fun children => ∃ comma own own' : Attributes, children = [comma, own, own'] ∧
        own'.length = some last.count) rfl rfl (checks_leaf fun comma _ => ?_) ?_ hrest)
      (by simp [Legal])
    · exact ihe ha fun own _ => ihlast ha fun own' h' => checks_nil ⟨⟨_, own, own', rfl, h'⟩, rfl⟩
    · rintro s children hs ⟨comma, own, own', rfl, hlength⟩
      exact decides_argsPrepend (hs 2) hlength
  | skip =>
    intro rest a slots P Q _ hrest
    refine Form.checks_still True P rfl rfl ?_ (hrest {} trivial) (by simp [Legal])
    refine Form.checks_still True True rfl rfl ?_ (checks_nil rfl) (by rw [and_true])
    exact checks_leaf fun _ _ => checks_nil rfl
  | assign name value ih =>
    intro rest a slots P Q ha hrest
    refine Checks.congr (checks_namedTree (L := ctx.Sees name ∧ value.Legal ctx ∧ True) ha
      (fun a t ha ht => ?_) fun own => hrest own trivial) (by simp [Legal])
    refine Form.checks_variable h rfl rfl ha ht fun _ ha' => Form.checks_empty rfl rfl ?_
    exact checks_leaf fun _ _ => ih ha' fun _ _ => checks_leaf fun _ _ => checks_nil rfl
  | assignElement name index value ihindex ihvalue =>
    intro rest a slots P Q ha hrest
    refine Checks.congr (checks_namedTree
      (L := ctx.Sees name ∧ (index.Legal ctx ∧ True) ∧ value.Legal ctx ∧ True) ha
      (fun a t ha ht => ?_) fun own => hrest own trivial) (by simp [Legal, and_assoc])
    refine Form.checks_variable h rfl rfl ha ht fun _ ha' =>
      Form.checks_still (index.Legal ctx ∧ True) (value.Legal ctx ∧ True) rfl rfl
        (checks_leaf fun _ _ => ihindex ha' fun _ _ => ?_)
        (checks_leaf fun _ _ => ihvalue ha' fun _ _ => ?_) Iff.rfl
    · exact checks_leaf fun _ _ => checks_nil rfl
    · exact checks_leaf fun _ _ => checks_nil rfl
  | invoke name args ih =>
    intro rest a slots P Q ha hrest
    exact checks_namedTree ha (fun a t ha ht => checks_invoke h ih ha ht) fun own =>
      hrest own trivial
  | choose condition body ihc ihb =>
    intro rest a slots P Q ha hrest
    refine Checks.congr (checks_chooseTree ihc ihb (M := True) ha (fun _ _ => ?_)
      fun own => hrest own trivial) (by simp [Legal])
    exact Form.checks_empty rfl rfl (checks_nil rfl)
  | chooseElse condition body other ihc ihb iho =>
    intro rest a slots P Q ha hrest
    refine Checks.congr (checks_chooseTree ihc ihb (M := other.Legal ctx ∧ True) ha
      (fun _ ha' => ?_) fun own => hrest own trivial) (by simp [Legal])
    refine Form.checks_still (other.Legal ctx ∧ True) True rfl rfl (checks_leaf fun _ _ => ?_)
      (checks_nil rfl) (by rw [and_true])
    exact checks_bracedTree iho ha' fun _ _ => checks_nil rfl
  | loop condition body ihc ihb =>
    intro rest a slots P Q ha hrest
    refine Checks.congr (checks_loopTree ihc (M := body.Legal ctx ∧ True) ha
      (fun _ ha' => ?_) fun own => hrest own trivial) (by simp [Legal])
    refine Form.checks_still (body.Legal ctx ∧ True) True rfl rfl ?_ (checks_nil rfl)
      (by rw [and_true])
    exact checks_bracedTree ihb ha' fun _ _ => checks_nil rfl
  | loopOne condition body ihc ihb =>
    intro rest a slots P Q ha hrest
    refine Checks.congr (checks_loopTree ihc (M := body.Legal ctx ∧ True) ha
      (fun _ ha' => ?_) fun own => hrest own trivial) (by simp [Legal])
    refine Form.checks_still (body.Legal ctx ∧ True) True rfl rfl (ihb ha' fun _ _ => ?_)
      (checks_nil rfl) (by rw [and_true])
    exact checks_nil rfl
  | leave =>
    intro rest a slots P Q ha hrest
    refine Checks.congr (checks_returnTree (L := True) rfl rfl ha
      (fun s hs hp ⟨_, hkeyword⟩ => decides_returnNothing (hp ▸ h) hs hkeyword)
      (fun _ _ => ?_) fun own => hrest own trivial) (by simp [Legal])
    exact checks_leaf fun _ _ => checks_nil rfl
  | giveBack e ih =>
    intro rest a slots P Q ha hrest
    refine Checks.congr (checks_returnTree (L := e.Legal ctx ∧ True) rfl rfl ha
      (fun s hs hp ⟨_, hkeyword⟩ => decides_returnValue (hp ▸ h) hs hkeyword)
      (fun _ ha' => ih ha' fun _ _ => ?_) fun own => hrest own trivial) (by simp [Legal])
    exact checks_leaf fun _ _ => checks_nil rfl
  | done =>
    intro rest a slots P Q _ hrest
    rw [Legal, true_and]
    exact Form.checks_empty rfl rfl (hrest {} trivial)
  | step s last ihs ihlast =>
    intro rest a slots P Q ha hrest
    refine Form.checks_still (s.Legal ctx ∧ last.Legal ctx ∧ True) P rfl rfl
      (ihs ha fun _ _ => ?_) (hrest {} trivial) (by simp [Legal])
    exact ihlast ha fun _ _ => checks_nil rfl

end PredictiveParsing.Cminus
