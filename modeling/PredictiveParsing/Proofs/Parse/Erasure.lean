import PredictiveParsing.Proofs.Cminus.Legality
import PredictiveParsing.Proofs.Parse.Leaves

/-!
# Parsing without the actions

A machine and the same machine without effects (`Machine.plain`) go in lockstep, with the same stack
and trees of one shape, until an action fails (`lockstep_step`). So they come to the same end or
both to none, unless an action ends the run (`ends_alike`).
-/

namespace PredictiveParsing

variable {α : Type}

namespace Machine

/-- The machine when no action has an effect. -/
def plain (m : Machine α) : Machine α := { m with semantics := Semantics.none }

/-- The action that ran last failed, and ends the run with this failure. -/
def Broke (m : Machine α) (f : Failure) (w : Workspace) (history : List (Event α)) : Prop :=
  ∃ action id, (actionsOf history).getLast? = some (action, id) ∧ m.FailsIn action id f w

/-- Two configurations that differ in what actions do at most. -/
structure Alike (c c' : Config α) : Prop where
  stack : c'.stack = c.stack
  bare : c'.workspace.tree.bare = c.workspace.tree.bare
  takers : takersOf c'.history = takersOf c.history

/-- The outcomes with and without actions are alike, or an action failed. -/
inductive Lockstep (m : Machine α) : Outcome α → Outcome α → Prop
  | moved {c c' : Config α} (h : Alike c c') : Lockstep m (.moved c) (.moved c')
  | taken {c c' : Config α} (h : Alike c c') : Lockstep m (.taken c) (.taken c')
  | ended (v : Verdict) {c c' : Config α} (h : Alike c c') : Lockstep m (.ended v c) (.ended v c')
  | broke {f : Failure} {c : Config α} (h : m.Broke f c.workspace c.history) (o : Outcome α) :
      Lockstep m (.ended (.rejected f) c) o

variable {m : Machine α} {c c' : Config α}

theorem Acted.alike {c₁ : Config α} (h : Acted c c₁) (h' : Alike c c') : Alike c₁ c' :=
  ⟨h'.stack.trans h.stack.symm, h'.bare.trans h.bare.symm, h'.takers.trans h.takers.symm⟩

@[simp] theorem performAll_plain (due : List (α × Nat)) (c : Config α) :
    m.plain.performAll due c = (.ok (), c) := by
  induction due with
  | nil => rfl
  | cons head due ih => exact ih

/-- The actions that are due make no difference unless one fails. -/
theorem alike_performAll (hm : m.semantics.Attributive) (h : Alike c c') {due : List (α × Nat)}
    {c₁ : Config α} {r : Except Failure Unit} (hdue : m.performAll due c = (r, c₁)) :
    Alike c₁ c' ∧ ∀ f, r = .error f → m.Broke f c₁.workspace c₁.history := by
  obtain ⟨hacted, hresult⟩ := acted_performAll hm hdue
  refine ⟨hacted.alike h, fun f hf => ?_⟩
  subst hf
  obtain ⟨before, action, id, after, -, hactions, hfails⟩ := hresult
  refine ⟨action, id, ?_, hfails⟩
  obtain ⟨effect, _, he, -⟩ := hfails
  rw [hactions]
  simp [ofDue, Errand.actions, Errand.action?, he]

theorem Alike.branch (h : Alike c c') (p : Production α) (id : Nat) :
    Alike (branch p id c) (branch p id c') := by
  obtain ⟨stack, ⟨tree, pool⟩, history⟩ := c
  obtain ⟨stack', ⟨tree', pool'⟩, history'⟩ := c'
  obtain ⟨rfl, hbare, htakers⟩ := h
  refine ⟨?_, Tree.attachAll_bare_eq hbare id p.right, htakers⟩
  simp only [Machine.branch]
  rw [Tree.size_eq_of_bare hbare]

theorem Alike.take (h : Alike c c') (current : Lookahead) (id : Nat) :
    Alike (take current id c) (take current id c') := by
  refine ⟨h.stack, ?_, ?_⟩
  · exact (Tree.bare_setAttrs ..).trans (h.bare.trans (Tree.bare_setAttrs ..).symm)
  · exact (takersOf_took ..).trans ((congrArg (· ++ [id]) h.takers).trans (takersOf_took ..).symm)

theorem lockstep_expand (hm : m.semantics.Attributive) (h : Alike c c') (current : Lookahead)
    (id index : Nat) :
    m.Lockstep (m.expand current id index c) (m.plain.expand current id index c') := by
  have hprod : m.plain.grammar.productions[index]? = m.grammar.productions[index]? := rfl
  rw [expand, expand, hprod]
  cases m.grammar.productions[index]? with
  | none => exact .ended _ h
  | some p =>
    by_cases hp : p.slots.length = p.right.length
    · have h₁ : Alike { c with history := .expanded id index current.line :: c.history }
          { c' with history := .expanded id index current.line :: c'.history } :=
        ⟨h.stack, h.bare, by rw [takersOf_expanded, takersOf_expanded, h.takers]⟩
      simp only [if_pos hp, performAll_plain]
      rcases hopening : m.performAll (p.opening.toList.map fun action => (action, id))
        { c with history := .expanded id index current.line :: c.history } with ⟨f | _, c₁⟩
      · exact .broke ((alike_performAll hm h₁ hopening).2 f rfl) _
      · exact .moved ((alike_performAll hm h₁ hopening).1.branch p id)
    · simp only [if_neg hp]
      exact .ended _ h

theorem lockstep_matched (h : Alike c c') (current : Lookahead) {id : Nat} {s : Sign}
    (hsign : c.workspace.tree.sign? id = some s) (hs : s.matched = true) :
    m.Lockstep (m.visit current id c) (m.plain.visit current id c') := by
  rw [visit_of_matched hsign hs, visit_of_matched ((Tree.sign?_eq_of_bare h.bare id).trans hsign) hs]
  split
  · split
    · exact .ended _ h
    · exact .taken (h.take current id)
  · exact .ended _ h

theorem lockstep_visit (hm : m.semantics.Attributive) (h : Alike c c') (current : Lookahead)
    (id : Nat) : m.Lockstep (m.visit current id c) (m.plain.visit current id c') := by
  have hsign' := Tree.sign?_eq_of_bare h.bare id
  cases hsign : c.workspace.tree.sign? id with
  | none =>
    rw [visit_of_none hsign, visit_of_none (hsign'.trans hsign)]
    exact .ended _ h
  | some s =>
    cases s with
    | terminal i => exact lockstep_matched h current hsign rfl
    | pound => exact lockstep_matched h current hsign rfl
    | empty =>
      rw [visit_of_empty hsign, visit_of_empty (hsign'.trans hsign)]
      exact .moved h
    | nonTerminal nt =>
      have htable : m.plain.table = m.table := rfl
      cases hcell : current.sign.bind (m.table.get? nt) with
      | none =>
        rw [visit_of_blank hsign hcell, visit_of_blank (hsign'.trans hsign) (htable ▸ hcell)]
        exact .ended _ h
      | some index =>
        rw [visit_of_cell hsign hcell, visit_of_cell (hsign'.trans hsign) (htable ▸ hcell)]
        exact lockstep_expand hm h current id index

theorem lockstep_step (hm : m.semantics.Attributive) (h : Alike c c') (current : Lookahead) :
    m.Lockstep (m.step current c) (m.plain.step current c') := by
  obtain ⟨stack, w, history⟩ := c
  obtain ⟨stack', w', history'⟩ := c'
  obtain ⟨rfl, hbare, htakers⟩ := h
  cases stack' with
  | nil => exact .ended _ ⟨rfl, hbare, htakers⟩
  | cons frame stack =>
    have h₁ : Alike ⟨stack, w, history⟩ ⟨stack, w', history'⟩ := ⟨rfl, hbare, htakers⟩
    rw [step, step, performAll_plain]
    rcases hdue : m.performAll frame.due ⟨stack, w, history⟩ with ⟨f | _, c₁⟩
    · exact .broke ((alike_performAll hm h₁ hdue).2 f rfl) _
    · exact lockstep_visit hm (alike_performAll hm h₁ hdue).1 current frame.node

/-! ## Runs -/

theorem alike_start (m : Machine α) (pool : Pool) : Alike (m.start pool) (m.plain.start pool) :=
  ⟨rfl, rfl, rfl⟩

theorem lockstep_advance (hm : m.semantics.Attributive) (current : Lookahead) (bound : Nat)
    (h : Alike c c') :
    m.Lockstep (m.advance current bound c) (m.plain.advance current bound c') := by
  induction bound generalizing c c' with
  | zero => exact .ended _ h
  | succ bound ih =>
    have hstep := lockstep_step hm h current
    rw [advance, advance]
    revert hstep
    generalize m.step current c = o
    generalize m.plain.step current c' = o'
    intro hstep
    cases hstep with
    | moved h => exact ih h
    | taken h => exact .taken h
    | ended v h => exact .ended v h
    | broke h => exact .broke h _

theorem lockstep_goOn (hm : m.semantics.Attributive) (patience : Nat) (last : Lookahead)
    (rest : List Lookahead) (h : Alike c c') :
    (∃ f, (m.goOn patience last rest c).1 = .rejected f ∧
      m.Broke f (m.goOn patience last rest c).2.workspace (m.goOn patience last rest c).2.history) ∨
    (m.plain.goOn patience last rest c').1 = (m.goOn patience last rest c).1 := by
  induction rest generalizing c c' with
  | nil =>
    have hadvance := lockstep_advance hm last (c.stack.length * patience + 1) h
    rw [goOn, goOn, h.stack]
    revert hadvance
    generalize m.advance last (c.stack.length * patience + 1) c = o
    generalize m.plain.advance last (c.stack.length * patience + 1) c' = o'
    intro hadvance
    cases hadvance with
    | moved => exact .inr rfl
    | taken => exact .inr rfl
    | ended => exact .inr rfl
    | broke h => exact .inl ⟨_, rfl, h⟩
  | cons current rest ih =>
    have hadvance := lockstep_advance hm current (c.stack.length * patience + 1) h
    rw [goOn, goOn, h.stack]
    revert hadvance
    generalize m.advance current (c.stack.length * patience + 1) c = o
    generalize m.plain.advance current (c.stack.length * patience + 1) c' = o'
    intro hadvance
    cases hadvance with
    | moved => exact .inr rfl
    | taken h => exact ih h
    | ended => exact .inr rfl
    | broke h => exact .inl ⟨_, rfl, h⟩

section Reaches

variable {tokens : List Token} {pool : Pool} {rest : List Lookahead}

theorem Reaches.exists_alike (hm : m.semantics.Attributive) (h : m.Reaches tokens pool rest c) :
    ∃ c', m.plain.Reaches tokens pool rest c' ∧ Alike c c' := by
  induction h with
  | start => exact ⟨_, .start, alike_start m pool⟩
  | @moved rest c _ _ hs ih =>
    obtain ⟨c', hreaches, halike⟩ := ih
    have hstep := lockstep_step hm halike (rest.headD (Lookahead.atEnd tokens))
    rw [hs] at hstep
    generalize hs' : m.plain.step _ c' = o' at hstep
    cases hstep with
    | moved h => exact ⟨_, .moved hreaches hs', h⟩
  | @taken current rest c _ _ hs ih =>
    obtain ⟨c', hreaches, halike⟩ := ih
    have hstep := lockstep_step hm halike current
    rw [hs] at hstep
    generalize hs' : m.plain.step _ c' = o' at hstep
    cases hstep with
    | taken h => exact ⟨_, .taken hreaches hs', h⟩

/-- As long as it does not end, the machine follows the one without actions. -/
theorem exists_alike_of_plain (hm : m.semantics.Attributive)
    (hends : ∀ v c, ¬ m.Finishes tokens pool v c) (h : m.plain.Reaches tokens pool rest c') :
    ∃ c, m.Reaches tokens pool rest c ∧ Alike c c' := by
  induction h with
  | start => exact ⟨_, .start, alike_start m pool⟩
  | @moved rest c' _ _ hs' ih =>
    obtain ⟨c, hreaches, halike⟩ := ih
    have hstep := lockstep_step hm halike (rest.headD (Lookahead.atEnd tokens))
    rw [hs'] at hstep
    generalize hs : m.step _ c = o at hstep
    cases hstep with
    | moved h => exact ⟨_, .moved hreaches hs, h⟩
    | broke => exact absurd (finishes_iff.mpr ⟨rest, c, hreaches, hs⟩) (hends _ _)
  | @taken current rest c' _ _ hs' ih =>
    obtain ⟨c, hreaches, halike⟩ := ih
    have hstep := lockstep_step hm halike current
    rw [hs'] at hstep
    generalize hs : m.step _ c = o at hstep
    cases hstep with
    | taken h => exact ⟨_, .taken hreaches hs, h⟩
    | broke => exact absurd (finishes_iff.mpr ⟨current :: rest, c, hreaches, hs⟩) (hends _ _)

/-- An end of the run is one by an action, or the machine without actions comes to the same. -/
theorem Finishes.broke_or_plain (hm : m.semantics.Attributive) {v : Verdict}
    (h : m.Finishes tokens pool v c) : (∃ f, v = .rejected f ∧ m.Broke f c.workspace c.history) ∨
      ∃ c', m.plain.Finishes tokens pool v c' ∧ Alike c c' := by
  obtain ⟨rest, c₁, hreaches, hs⟩ := finishes_iff.mp h
  obtain ⟨c₁', hreaches', halike⟩ := hreaches.exists_alike hm
  have hstep := lockstep_step hm halike (rest.headD (Lookahead.atEnd tokens))
  rw [hs] at hstep
  generalize hs' : m.plain.step _ c₁' = o' at hstep
  cases hstep with
  | ended _ h => exact .inr ⟨_, finishes_iff.mpr ⟨rest, c₁', hreaches', hs'⟩, h⟩
  | broke h => exact .inl ⟨_, rfl, h⟩

theorem Finishes.exists_of_plain (hm : m.semantics.Attributive) {v : Verdict}
    (h : m.plain.Finishes tokens pool v c') : ∃ v c, m.Finishes tokens pool v c := by
  by_contra hends
  have hends : ∀ v c, ¬ m.Finishes tokens pool v c := fun v c h => hends ⟨v, c, h⟩
  obtain ⟨rest, c₁', hreaches', hs'⟩ := finishes_iff.mp h
  obtain ⟨c₁, hreaches, halike⟩ := exists_alike_of_plain hm hends hreaches'
  have hstep := lockstep_step hm halike (rest.headD (Lookahead.atEnd tokens))
  rw [show m.plain.step (rest.headD (Lookahead.atEnd tokens)) c₁' = _ from hs'] at hstep
  generalize hs : m.step _ c₁ = o at hstep
  cases hstep with
  | ended v h => exact hends _ _ (finishes_iff.mpr ⟨rest, c₁, hreaches, hs⟩)
  | broke => exact hends _ _ (finishes_iff.mpr ⟨rest, c₁, hreaches, hs⟩)

/-! ## Ends -/

theorem Declines.refuses {current : Lookahead} {t : Tree} {id : Nat} {f : Failure}
    (h : m.Declines current t id f) : m.grammar.Refuses f := by
  cases h with
  | mismatch => exact .unexpected _ _
  | blank => exact .unexpected _ _
  | arity _ _ hp hslots => exact .arity (List.mem_of_getElem? hp) hslots

/-- Without actions a run is accepted, or it is refused by the machine itself. -/
theorem Finishes.settled_of_plain (hg : m.grammar.Valid) (ht : m.table.Fits m.grammar)
    {v : Verdict} (h : m.plain.Finishes tokens pool v c') :
    v = .accepted ∨ ∃ f, m.grammar.Refuses f ∧ v = .rejected f := by
  obtain ⟨rest, c, hreaches, hs⟩ := finishes_iff.mp h
  have hsafe := Reaches.safe (m := m.plain) Semantics.local_none hg ht hreaches
  have hstepped := stepped_step m.plain (rest.headD (Lookahead.atEnd tokens)) c
  rw [hs] at hstepped
  cases hstepped with
  | blank => exact .inr ⟨_, .unexpected _ _, rfl⟩
  | due hdue => cases (performAll_plain _ _).symm.trans hdue
  | visited hdue hvisited =>
    cases hvisited with
    | astray => exact absurd hs (hsafe.not_astray _)
    | declined h => exact .inr ⟨_, h.refuses, rfl⟩
    | failed _ _ hopening => cases (performAll_plain _ _).symm.trans hopening
    | accepted => exact .inl rfl

end Reaches

end Machine

/-- What a run with this verdict and tree has in common with a run to the same verdict and another
tree: an accepted run's trees are one but for attributes, and the terminals have the same texts and
lines. -/
structure SameEnd (g : Grammar α) (v : Verdict) (t t' : Tree) : Prop where
  settled : v = .accepted ∨ ∃ f, g.Refuses f ∧ v = .rejected f
  bare : t'.bare = t.bare
  terminals : v = .accepted → ∀ id i, t.sign? id = some (.terminal i) →
    (t'.attrs id).lexical = (t.attrs id).lexical ∧ (t'.attrs id).line = (t.attrs id).line

theorem Tree.texts_eq_of_shows {t t' : Tree} {g : Grammar α} {ids : List Nat} {tokens : List Token}
    (h : List.Forall₂ (t.Shows g) ids tokens) (h' : List.Forall₂ (t'.Shows g) ids tokens) :
    ∀ id ∈ ids, (t'.attrs id).lexical = (t.attrs id).lexical ∧
      (t'.attrs id).line = (t.attrs id).line := by
  induction h with
  | nil => exact fun id hid => nomatch hid
  | cons hshows _ ih =>
    cases h' with
    | cons hshows' h' =>
      refine List.forall_mem_cons.mpr ⟨⟨?_, ?_⟩, ih h'⟩
      · exact hshows'.lexical.trans hshows.lexical.symm
      · exact hshows'.line.trans hshows.line.symm

namespace Machine

variable {m : Machine α} {tokens : List Token} {pool : Pool}

theorem sameEnd_of_alike (hm : m.semantics.Local) (hg : m.grammar.Valid)
    (ht : m.table.Fits m.grammar) {v : Verdict} {c c' : Config α}
    (h : m.Finishes tokens pool v c) (h' : m.plain.Finishes tokens pool v c')
    (halike : Alike c c') : SameEnd m.grammar v c.workspace.tree c'.workspace.tree where
  settled := h'.settled_of_plain hg ht
  bare := halike.bare
  terminals := by
    rintro rfl id i hsign
    obtain ⟨done, stack, U, hread⟩ := h.accepted hm
    obtain ⟨_, _, -, hread'⟩ := h'.accepted Semantics.local_none
    rw [halike.takers] at hread'
    have T : m.Traversal c.workspace.tree c.history done (.visit sentinel :: pending stack) :=
      U.toTraversal
    refine Tree.texts_eq_of_shows hread hread' id ?_
    rw [U.takers, List.mem_filter, Errand.mem_visits, Tree.takes_of_sign? hsign]
    exact ⟨T.mem_done_of_sentinel hsign nofun, rfl⟩

/-- Counted runs with one verdict come to the same end, unless an action ended the one with them. -/
theorem run_alike (hm : m.semantics.Local) (hg : m.grammar.Valid) (ht : m.table.Fits m.grammar)
    (hv : (m.plain.run tokens pool).verdict = (m.run tokens pool).verdict) :
    let r := m.run tokens pool
    let r' := m.plain.run tokens pool
    (∃ f, r.verdict = .rejected f ∧ m.Broke f ⟨r.tree, r.pool⟩ r.history.reverse) ∨
      (r.verdict = .endless ∧ r'.verdict = .endless) ∨
      r'.verdict = r.verdict ∧ SameEnd m.grammar r.verdict r.tree r'.tree := by
  intro r r'
  have hsettled : (r.verdict = .accepted ∨ ∃ f, r.verdict = .rejected f) →
      (∃ f, r.verdict = .rejected f ∧ m.Broke f ⟨r.tree, r.pool⟩ r.history.reverse) ∨
        SameEnd m.grammar r.verdict r.tree r'.tree := by
    intro hr
    obtain ⟨c, h, hworkspace, hhistory⟩ := exists_finishes_run hr
    obtain ⟨c', h', hworkspace', -⟩ := exists_finishes_run (hv.symm ▸ hr)
    have hhistory : c.history = r.history.reverse := by rw [← hhistory, List.reverse_reverse]
    rw [hv] at h'
    rcases h.broke_or_plain hm.attributive with ⟨f, hf, hbroke⟩ | ⟨c₁, h₁, halike⟩
    · rw [hworkspace, hhistory] at hbroke
      exact .inl ⟨f, hf, hbroke⟩
    · obtain rfl := (h₁.unique h').2
      have hsame := sameEnd_of_alike hm hg ht h h' halike
      rw [hworkspace, hworkspace'] at hsame
      exact .inr hsame
  by_cases hr : r.verdict = .accepted ∨ ∃ f, r.verdict = .rejected f
  · exact (hsettled hr).imp_right fun hsame => .inr ⟨hv, hsame⟩
  · have hendless : r.verdict = .endless := by
      have hastray := run_ne_astray hm hg ht tokens pool
      cases hverdict : r.verdict with
      | endless => rfl
      | astray => exact absurd hverdict hastray
      | accepted => exact absurd (.inl hverdict) hr
      | rejected f => exact absurd (.inr ⟨f, hverdict⟩) hr
    exact .inr (.inl ⟨hendless, hv.trans hendless⟩)

end Machine

/-- Whatever the actions of a machine write, they only end runs early: a run that no action ends
comes to the same end as without actions, or to none like that. So it is with the loop itself and
with the counted runs. The actions of C-minus are such actions. -/
theorem actions_only_interrupt :
    (∀ (α : Type) (m : Machine α), m.grammar.validate = .ok () → m.table.Fits m.grammar →
      m.semantics.Local → ∀ (tokens : List Token) (pool : Pool),
      ((∃ f c, m.Finishes tokens pool (.rejected f) c ∧ m.Broke f c.workspace c.history) ∨
        ((∀ v c, ¬ m.Finishes tokens pool v c) ∧ ∀ v c, ¬ m.plain.Finishes tokens pool v c) ∨
        ∃ v c c', m.Finishes tokens pool v c ∧ m.plain.Finishes tokens pool v c' ∧
          SameEnd m.grammar v c.workspace.tree c'.workspace.tree) ∧
      (let r := m.run tokens pool
       let r' := m.plain.run tokens pool
       (∃ f, r.verdict = .rejected f ∧ m.Broke f ⟨r.tree, r.pool⟩ r.history.reverse) ∨
        (r.verdict = .endless ∧ r'.verdict = .endless) ∨
        r'.verdict = r.verdict ∧ SameEnd m.grammar r.verdict r.tree r'.tree)) ∧
      Cminus.semantics.Local := by
  refine ⟨fun α m hg ht hm tokens pool => ?_, Cminus.local_semantics⟩
  have hvalid := Grammar.validate_eq_ok_iff.mp hg
  constructor
  · by_cases hends : ∃ v c, m.Finishes tokens pool v c
    · obtain ⟨v, c, h⟩ := hends
      rcases h.broke_or_plain hm.attributive with ⟨f, rfl, hbroke⟩ | ⟨c', h', halike⟩
      · exact .inl ⟨f, c, h, hbroke⟩
      · exact .inr (.inr ⟨v, c, c', h, h', Machine.sameEnd_of_alike hm hvalid ht h h' halike⟩)
    · refine .inr (.inl ⟨fun v c h => hends ⟨v, c, h⟩, fun v c' h' => hends ?_⟩)
      exact h'.exists_of_plain hm.attributive
  · intro r r'
    rcases Machine.lockstep_goOn hm.attributive m.patience (Lookahead.atEnd tokens)
        (tokens.map (Lookahead.ofToken m.grammar)) (Machine.alike_start m pool) with
      ⟨f, hv, hbroke⟩ | hv
    · exact .inl ⟨f, hv, (List.reverse_reverse _).symm ▸ hbroke⟩
    · exact Machine.run_alike hm hvalid ht hv

/-- Two blocks fail with their actions only; one has the same tree with them and without. -/
theorem actions_only_interrupt_blocks :
    (blocks.run twoBlocks Pool.initial).verdict =
        .rejected (.semantic (.stated "too many blocks") none) ∧
      (blocks.plain.run twoBlocks Pool.initial).verdict = .accepted ∧
      (blocks.run oneBlock Pool.initial).verdict = .accepted ∧
      SameEnd blocks.grammar .accepted (blocks.run oneBlock Pool.initial).tree
        (blocks.plain.run oneBlock Pool.initial).tree := by
  have hv : (blocks.run oneBlock Pool.initial).verdict = .accepted := by decide +kernel
  refine ⟨by decide +kernel, by decide +kernel, hv, ?_⟩
  have hsame := (actions_only_interrupt.1 _ blocks (by decide) fits_blocks local_blocks oneBlock
    Pool.initial).2
  simp only [hv] at hsame
  rcases hsame with ⟨f, hf, -⟩ | ⟨hendless, -⟩ | ⟨-, hsame⟩
  · cases hf
  · cases hendless
  · exact hsame

end PredictiveParsing
