import PredictiveParsing.Proofs.Cminus.Compilers
import PredictiveParsing.Proofs.Cminus.Naming

/-!
# The arguments of a call

The number of arguments comes up from the end of their list: none behind the last one, one more at
each expression. When a node of the list is closed, its number is that of the outermost expressions
at and below it, which stay as they are, because everything there was visited.

* `Counted`, `counted_of_did`: so it is with every number that was counted in a run;
* `arguments_counted`: whatever the table is, a call is checked for the number of its arguments and
  that of the parameters of the first function with its name.
-/

namespace PredictiveParsing.Cminus

open Errand
open Sign (terminal nonTerminal)

def expression : Sign := nonTerminal Place.expression

/-! ## Places for actions -/

/-- The action counts arguments. -/
def Action.counts : Action → Bool
  | argsNone => true
  | argsFrom _ => true
  | argsPrepend _ => true
  | _ => false

/-- The non-terminals for the arguments of a call. -/
def lists : List Nat := [Place.callParams, Place.callParamList, Place.callParamFollow]

/-- How a production deals with arguments. They are counted and calls are checked when nodes are
closed, and only then. -/
@[mk_iff]
structure CountsArguments (p : Production Action) : Prop where
  posts : ∀ post ∈ p.posts, (post.1.counts = true ↔ ∃ nt ∈ lists, post.2 = nonTerminal nt)
  lists : p.left ∈ lists → ∃ action ∈ p.closing, action.counts = true
  opening : ∀ action ∈ p.opening, ¬ (action.counts = true ∨ action = .checkCall)
  slots : ∀ slot ∈ p.slots, ∀ action ∈ slot, ¬ (action.counts = true ∨ action = .checkCall)

instance : DecidablePred CountsArguments := fun p =>
  decidable_of_iff _ (countsArguments_iff p).symm

theorem countsArguments_resolved : ∀ p ∈ resolved.productions, CountsArguments p := by
  decide +kernel

theorem closes_call {action : Action} (h : action.counts = true ∨ action = .checkCall) :
    resolved.OnlyCloses action := fun p hp =>
  ⟨fun hopening => (countsArguments_resolved p hp).opening action hopening h,
    fun hslot => (countsArguments_resolved p hp).slots _ hslot action rfl h⟩

theorem forms_closing : ∀ f ∈ Form.all, ∀ action ∈ f.production.closing,
    (action.counts = true → f ∈ [Form.someArguments, .noArguments, .argumentList, .moreArguments,
      .lastArgument]) ∧ (action = .checkCall → f = .call) := by
  decide +kernel

/-! ## Counting -/

section Site

variable {s : Site} {i n : Nat} {child : Attributes} {change : Change}

theorem length_of_argsFrom (hchild : s.child? i = some child) (hlength : child.length = some n)
    (hjudge : (Action.argsFrom i).judge s = .ok change) : change.attrs.length = some n := by
  have hdecides := decides_argsFrom hchild hlength
  rw [hjudge] at hdecides
  rw [hdecides.2]

theorem length_of_argsPrepend (hchild : s.child? i = some child) (hlength : child.length = some n)
    (hjudge : (Action.argsPrepend i).judge s = .ok change) :
    change.attrs.length = some (n + 1) := by
  have hdecides := decides_argsPrepend hchild hlength
  rw [hjudge] at hdecides
  rw [hdecides.2]

end Site

/-- What was counted at a node are the outermost expressions there. -/
def Counted (done : List (Errand Action)) (w : Workspace) : Prop :=
  ∀ id action, action.counts = true → .act action id ∈ done →
    (w.tree.attrs id).length = some (w.tree.outermost expression id).length

section Did

variable {t : Table} {pool : Pool} {done ahead : List (Errand Action)}
  {history : List (Event Action)} {w w' : Workspace} {id : Nat}

variable (ht : t.Fits resolved)

include ht

/-- Where all is done, the arguments are counted. -/
theorem length_of_done (M : (machineWith t).Moment w.tree history done ahead)
    (hcounted : Counted done w) {nt : Nat} (hsign : w.tree.sign? id = some (nonTerminal nt))
    (hnt : nt ∈ lists) (hdone : w.tree.errands (resolved.planOf history) id ⊆ done) :
    (w.tree.attrs id).length = some (w.tree.outermost expression id).length := by
  have hlinked := M.rooted.toWellLinked
  have hid := Tree.lt_size_of_sign? hsign
  have hvisit : .visit id ∈ done := hdone (hlinked.visit_mem_errands hid)
  cases hplan : resolved.planOf history id with
  | none => exact absurd hplan (M.expanded id nt hvisit hsign)
  | some p =>
    obtain ⟨hp, hsign'⟩ := M.production ht hplan
    cases hsign.symm.trans hsign'
    obtain ⟨action, hclosing, hcounts⟩ := (countsArguments_resolved p hp).lists hnt
    exact hcounted id action hcounts (hdone (hlinked.closing_mem_errands hid hplan hclosing))

/-- A terminal has no argument below it. -/
theorem outermost_of_terminal (M : (machineWith t).Moment w.tree history done ahead) {i : Nat}
    (hsign : w.tree.sign? id = some (terminal i)) : w.tree.outermost expression id = [] := by
  have hplan : resolved.planOf history id = none := by
    cases hplan : resolved.planOf history id with
    | none => rfl
    | some p => cases hsign.symm.trans (M.production ht hplan).2
  rw [Tree.outermost_of_ne M.rooted.toWellLinked hsign Sign.noConfusion, M.childless id hplan,
    List.flatMap_nil]

/-- What is counted at a node comes from the counts at its children. -/
theorem counted_of_at {action : Action}
    (M : (machineWith t).Moment w.tree history done (.act action id :: ahead))
    (hcounts : action.counts = true) (hcounted : Counted done w)
    (hat : semantics.at (some action) id w = (.ok (), w')) :
    (w'.tree.attrs id).length = some (w.tree.outermost expression id).length := by
  have hlinked := M.rooted.toWellLinked
  obtain ⟨change, hjudge, rfl⟩ := exists_change hat
  obtain ⟨p, hp, hplan, hclosing, -, -, hbelow⟩ := M.of_closes ht rfl (closes_call (.inl hcounts))
  have hsign := (M.production ht hplan).2
  have hgrown := M.grown id p hplan
  rw [attrs_commit (Tree.lt_size_of_sign? hsign)]
  have hlast : ∀ {i c nt}, w.tree.child? id i = some c → w.tree.sign? c = some (nonTerminal nt) →
      nt ∈ lists → (Site.of w id).child? i = some (w.tree.attrs c) ∧
        (w.tree.attrs c).length = some (w.tree.outermost expression c).length := by
    intro i c nt hchild hc hnt
    exact ⟨Site.child?_of hchild,
      length_of_done ht M hcounted hc hnt (hbelow c (List.mem_of_getElem? hchild))⟩
  obtain ⟨f, -, rfl⟩ := exists_form hp
  have hform := (forms_closing f f.mem_all action hclosing).1 hcounts
  simp only [List.mem_cons, List.not_mem_nil, or_false] at hform
  rcases hform with rfl | rfl | rfl | rfl | rfl
  all_goals
    cases hclosing
    rw [Tree.outermost_of_ne (s := expression) hlinked hsign (by decide)]
    simp only [Form.production, List.map_cons, List.map_nil, List.map_eq_cons_iff,
      List.map_eq_nil_iff] at hgrown
  -- A list of arguments, or none; then an argument with what is behind it, also behind a comma.
  · obtain ⟨c, _, hchildren, hc, rfl⟩ := hgrown
    obtain ⟨hchild, hlength⟩ := hlast (i := 0) (by rw [Tree.child?, hchildren]; rfl) hc (by decide)
    rw [length_of_argsFrom hchild hlength hjudge, hchildren, List.flatMap_singleton]
  · cases hjudge
    rw [hgrown]
    rfl
  · obtain ⟨e, _, hchildren, he, c, _, rfl, hc, rfl⟩ := hgrown
    obtain ⟨hchild, hlength⟩ := hlast (i := 1) (by rw [Tree.child?, hchildren]; rfl) hc (by decide)
    have hone : w.tree.outermost expression e = [e] := Tree.outermost_of_sign? hlinked he
    rw [length_of_argsPrepend hchild hlength hjudge, hchildren]
    simp [hone, Nat.add_comm]
  · obtain ⟨comma, _, hchildren, hcomma, e, _, rfl, he, c, _, rfl, hc, rfl⟩ := hgrown
    obtain ⟨hchild, hlength⟩ := hlast (i := 2) (by rw [Tree.child?, hchildren]; rfl) hc (by decide)
    have hone : w.tree.outermost expression e = [e] := Tree.outermost_of_sign? hlinked he
    rw [length_of_argsPrepend hchild hlength hjudge, hchildren]
    simp [outermost_of_terminal ht M hcomma, hone, Nat.add_comm]
  · cases hjudge
    rw [hgrown]
    rfl

theorem counted_of_did (D : (machineWith t).Did pool done w) : Counted done w := by
  induction D with
  | start => exact fun _ _ _ h => absurd h List.not_mem_nil
  | @next done ahead steps e history w w' D M hdeed ih =>
    intro id action hcounts hid
    by_cases hnew : ∃ action, action.counts = true ∧ .act action id ∈ e :: steps
    · obtain ⟨action, hcounts, hnew⟩ := hnew
      have hrole := closes_call (.inl hcounts)
      obtain ⟨rfl, hat⟩ := hdeed.eq_act ht hnew fun p hp => (hrole p hp).1
      have hbare : w'.tree.bare = w.tree.bare := by
        refine (hdeed.bare_cases local_semantics).resolve_right ?_
        rintro ⟨_, _, ⟨⟩, -⟩
      rw [counted_of_at ht M hcounts ih hat, Tree.outermost_eq_of_bare hbare]
    · have hold := (List.mem_append.mp hid).resolve_right fun h => hnew ⟨action, hcounts, h⟩
      obtain ⟨p, hp, s, hsign, hpost⟩ := M.post ht (List.mem_append_left _ hold)
      have hlist := ((countsArguments_resolved p hp).posts _ hpost).mp hcounts
      have hact : ∀ action, .act action id ∉ e :: steps := by
        intro action hact
        obtain ⟨q, hq, s', hsign', hpost'⟩ := M.post_of_deed hdeed ht hact
        cases hsign.symm.trans hsign'
        have hcounts' := ((countsArguments_resolved q hq).posts _ hpost').mpr hlist
        exact hnew ⟨action, hcounts', hact⟩
      obtain ⟨nt, -, rfl⟩ := hlist
      have hvisited := M.visited_of_closed ht hold (closes_call (.inl hcounts))
      rw [hdeed.attrs_eq local_semantics (Tree.lt_size_of_sign? hsign) hact fun _ => ⟨nt, hsign⟩,
        ih id action hcounts hold,
        M.outermost_eq hdeed local_semantics (Tree.lt_size_of_sign? hsign) hvisited]

end Did

/-! ## Calls -/

/-- A call with the node `params` for its arguments is checked against the function `name`, which
has parameters of these types. -/
structure CheckedCall (m : Machine Action) (w : Workspace) (id params : Nat) (name : String)
    (types : List ValueType) : Prop where
  node : w.tree.sign? id = resolved.nonTerminal "call-follow"
  child : w.tree.child? id 1 = some params
  sign : w.tree.sign? params = resolved.nonTerminal "call-params"
  /-- What is below the node was derived by productions down to the terminals. -/
  derived : ∀ x ∈ w.tree.subtree params, ∀ nt, w.tree.sign? x = some (nonTerminal nt) →
    ∃ p ∈ resolved.productions, p.left = nt ∧
      (w.tree.children x).map w.tree.sign? = p.right.map some
  given : (w.tree.attrs params).length = some (w.tree.outermost expression params).length
  /-- The call has the name of the identifier before it. -/
  called : (w.tree.attrs id).id = some name ∧ ∃ parent token, w.tree.parent? id = some parent ∧
    w.tree.sibling? parent 1 = some token ∧ w.tree.sign? token = resolved.terminal "id" ∧
      (w.tree.attrs token).lexical = some name
  entry : ∃ returns scope, w.pool.functions.entries.find? (fun s => s.name == name) =
    some (.function name returns types scope)
  verdict : m.semantics.at (some .checkCall) id w =
    let given := (w.tree.outermost expression params).length
    if given = types.length then
      (.ok (), ⟨w.tree.setAttrs id { w.tree.attrs id with length := some given }, w.pool⟩)
    else (.error (.semantic (.argumentCount name types.length given) (w.tree.attrs id).line), w)

theorem find?_of_calledFunction? {pool : Pool} {name : String} {returns : ValueType}
    {types : List ValueType} (h : calledFunction? pool name = some (returns, types)) :
    ∃ scope, pool.functions.entries.find? (fun s => s.name == name) =
      some (.function name returns types scope) := by
  rw [calledFunction?] at h
  split at h
  next name' _ _ scope hentry =>
    cases h
    have hname : (name' == name) = true := (List.find?_eq_some_iff_append.mp hentry).1
    cases eq_of_beq hname
    exact ⟨scope, hentry⟩
  next => cases h

theorem effect_checkCall {w : Workspace} {id params n : Nat} {name : String} {returns : ValueType}
    {types : List ValueType} (hid : (w.tree.attrs id).id = some name)
    (hchild : w.tree.child? id 1 = some params) (hlength : (w.tree.attrs params).length = some n)
    (hentry : calledFunction? w.pool name = some (returns, types)) :
    Action.checkCall.effect id w =
      if n = types.length then
        (.ok (), ⟨w.tree.setAttrs id { w.tree.attrs id with length := some n }, w.pool⟩)
      else (.error (.semantic (.argumentCount name types.length n) (w.tree.attrs id).line), w) := by
  have hneed : need .callTarget (calledFunction? (Site.of w id).pool name) =
      .ok (returns, types) := by
    have hpool : (Site.of w id).pool = w.pool := rfl
    rw [hpool, hentry]
    rfl
  rw [Action.effect_eq, Action.judge, checkCall, Site.identifier_eq (s := Site.of w id) hid,
    ok_bind, Site.child_eq (Site.child?_of hchild), ok_bind, hneed, ok_bind, hlength]
  by_cases hn : n = types.length
  · simp [hn, pure, Except.pure, Change.commit, Site.of]
  · simp [hn, refuse, bind, Except.bind, Complaint.failure, Site.of]

theorem exists_checkedCall {t : Table} (ht : t.Fits resolved) {pool : Pool}
    {done ahead : List (Errand Action)} {history : List (Event Action)} {w : Workspace} {id : Nat}
    (D : (machineWith t).Did pool done w)
    (M : (machineWith t).Moment w.tree history done (.act .checkCall id :: ahead)) :
    ∃ params name types, CheckedCall (machineWith t) w id params name types := by
  obtain ⟨p, hp, hplan, hclosing, hvisit, hopening, hbelow⟩ :=
    M.of_closes ht rfl (closes_call (.inr rfl))
  obtain ⟨f, -, rfl⟩ := exists_form hp
  obtain rfl := (forms_closing f f.mem_all _ hclosing).2 rfl
  have hsign : w.tree.sign? id = some (nonTerminal Place.callFollow) := (M.production ht hplan).2
  obtain ⟨params, hchild, hparams⟩ :=
    M.exists_child hplan (i := 1) (s := nonTerminal Place.callParams) rfl
  have hdone := hbelow params (List.mem_of_getElem? hchild)
  have hgiven := length_of_done ht M (counted_of_did ht D) hparams (by decide) hdone
  obtain ⟨name, hcall, hname⟩ :=
    inherited_of_did ht D id (handed ht M hvisit hsign rfl) hsign
  obtain ⟨name', hcall', hentry⟩ := called_of_did ht D id (hopening (List.mem_singleton_self _))
  cases hcall.unique M.rooted.toWellLinked hcall'
  obtain ⟨⟨returns, types⟩, hentry⟩ := Option.isSome_iff_exists.mp hentry
  obtain ⟨scope, hfind⟩ := find?_of_calledFunction? hentry
  obtain @⟨parent, hplace, hbehind⟩ := hcall
  obtain @⟨up, token, hup, htoken, htokenSign, -, hlexical⟩ := hbehind
  exact ⟨params, name, types,
    { node := hsign.trans (nonTerminal_place ("call-follow", _) (by simp)).symm
      child := hchild
      sign := hparams.trans (nonTerminal_place ("call-params", _) (by simp)).symm
      derived := by
        intro x hx nt hnt
        have hvisited := M.visited (Tree.lt_size_of_sign? hparams) hdone x hx
        cases hq : resolved.planOf history x with
        | none => exact absurd hq (M.expanded x nt hvisited hnt)
        | some q =>
          obtain ⟨hmem, hq'⟩ := M.production ht hq
          cases hnt.symm.trans hq'
          exact ⟨q, hmem, rfl, M.grown x q hq⟩
      given := hgiven
      called := by
        refine ⟨hname, parent, token, Tree.parent?_eq_some_iff.mpr ⟨0, hplace⟩, ?_,
          htokenSign.trans terminal_resolved.1.symm, hlexical⟩
        rw [Tree.sibling?_eq hup, if_pos (Nat.le_refl 1)]
        exact (M.rooted.child?_eq_some_iff up 0 token).mpr htoken
      entry := ⟨returns, scope, hfind⟩
      verdict := effect_checkCall hname hchild hgiven hentry }⟩

/-- Wherever a run checks a call, also one that fails later, the number of arguments at the call is
that of the expressions which stand as its arguments, and it is compared with the number of
parameters of the first function that has the name of the call. -/
theorem arguments_counted {c : Compiler} (hc : c.Made) {tokens : List Token} {pool : Pool}
    {rest : List Lookahead} {config : Config Action} {id : Nat} {w : Workspace}
    (hreaches : c.machine.Reaches tokens pool rest config)
    (hperforms : c.machine.Performs (rest.headD (Lookahead.atEnd tokens)) config .checkCall id w) :
    ∃ params name types, CheckedCall c.machine w id params name types := by
  obtain ⟨hgrammar, hfits⟩ := hc.fits
  obtain ⟨g, t, overlaps⟩ := c
  cases hgrammar
  have hm : (machineWith t).semantics.Attributive := local_semantics.attributive
  obtain ⟨done, U, D⟩ := Machine.Reaches.did (m := machineWith t) hm hreaches
  obtain ⟨done', history, e, ahead, D', M, hhead⟩ :=
    Machine.Performs.did (m := machineWith t) hm U D hperforms
  rcases hhead with rfl | ⟨-, p, hoffers, hopening⟩
  · exact exists_checkedCall hfits D' M
  · have hp := (Machine.mem_of_offers (m := machineWith t) hfits hoffers).1
    exact absurd hopening (closes_call (.inr rfl) p hp).1

/-- A call with two arguments, of which the first is a call with two arguments. -/
def nested : List Token :=
  [⟨"int", "int", 1⟩, ⟨"id", "f", 1⟩, ⟨"(", "(", 1⟩, ⟨"int", "int", 1⟩, ⟨"id", "a", 1⟩,
   ⟨",", ",", 1⟩, ⟨"int", "int", 1⟩, ⟨"id", "b", 1⟩, ⟨")", ")", 1⟩, ⟨"\x7b", "\x7b", 1⟩,
   ⟨"id", "f", 2⟩, ⟨"(", "(", 2⟩, ⟨"id", "f", 2⟩, ⟨"(", "(", 2⟩, ⟨"num", "1", 2⟩, ⟨",", ",", 2⟩,
   ⟨"num", "2", 2⟩, ⟨")", ")", 2⟩, ⟨",", ",", 2⟩, ⟨"num", "3", 2⟩, ⟨")", ")", 2⟩, ⟨";", ";", 2⟩,
   ⟨"\x7d", "\x7d", 3⟩]

theorem after_nested : (Compiled.ofGrammar resolved).map (fun c =>
    ((machineWith c.table).after nested Pool.initial 82).map fun (_, config) =>
      (config.stack.head?.map Frame.due, (config.workspace.tree.child? 37 1).bind fun params =>
        (config.workspace.tree.attrs params).length)) =
      .ok (some (some [(.checkCall, 37)], some 2)) := by
  decide +kernel

/-- The arguments of the inner call are not counted with those of the outer one. -/
theorem arguments_counted_nested : ∃ c : Compiler, c.Made ∧ ∃ rest config,
    c.machine.Reaches nested Pool.initial rest config ∧
    c.machine.Performs (rest.headD (Lookahead.atEnd nested)) config .checkCall 37
      config.workspace ∧
    ∃ params name types, CheckedCall c.machine config.workspace 37 params name types ∧
      (config.workspace.tree.attrs params).length = some 2 := by
  obtain ⟨compiled, hc, hsome⟩ := Compiler.exists_ofGrammar_of_map after_nested
  obtain ⟨⟨rest, config⟩, hafter, hresult⟩ := Option.map_eq_some_iff.mp hsome
  obtain ⟨hdue, hlength⟩ := Prod.mk.inj hresult
  have hmade := Compiler.Made.ofGrammar hc
  have hreaches := Machine.reaches_of_after hafter
  have hperforms : (machineWith compiled.table).Performs (rest.headD (Lookahead.atEnd nested))
      config .checkCall 37 config.workspace := Machine.performs_head hdue
  obtain ⟨params, name, types, hchecked⟩ := arguments_counted hmade hreaches hperforms
  refine ⟨_, hmade, rest, config, hreaches, hperforms, params, name, types, hchecked, ?_⟩
  rw [hchecked.child] at hlength
  exact hlength

end PredictiveParsing.Cminus
