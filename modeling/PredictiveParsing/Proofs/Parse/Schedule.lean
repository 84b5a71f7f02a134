import PredictiveParsing.Proofs.Parse.Traversal

/-!
# The schedule of the actions

The actions of a run are those of its tree, in the order of a recursive walk over the tree
(`Tree.errands`): all of them when the run is accepted, and those up to the errand that could not be
done when it is rejected (`Scheduled`, `scheduled_of_finishes`).
-/

namespace PredictiveParsing

variable {α : Type}

namespace Machine

variable {m : Machine α}

/-- An action fails and leaves the workspace, or a node is declined. -/
inductive Stops (m : Machine α) (current : Lookahead) (w : Workspace) (f : Failure) :
    Errand α → Prop
  | action {action : α} {id : Nat} (h : m.FailsIn action id f w) :
      Stops m current w f (.act action id)
  | node {id : Nat} (h : m.Declines current w.tree id f) : Stops m current w f (.visit id)

/-- The actions that ran up to the end of a run are those of its tree: all of them when it was
accepted, and else those up to the errand that could not be done. -/
structure Scheduled (m : Machine α) (current : Lookahead) (v : Verdict) (w : Workspace)
    (history : List (Event α)) : Prop where
  wellLinked : w.tree.WellLinked
  childless : ∀ id, m.grammar.planOf history id = none → w.tree.children id = []
  offered : ∀ id p, m.grammar.planOf history id = some p → m.Offers w.tree id p
  grown : ∀ id p, m.grammar.planOf history id = some p →
    (w.tree.children id).map w.tree.sign? = p.right.map some ∨
      w.tree.children id = [] ∧ ∃ f action, v = .rejected f ∧ p.opening = some action ∧
        m.FailsIn action id f w
  accepted : v = .accepted →
    (∀ id nt, w.tree.sign? id = some (.nonTerminal nt) → m.grammar.planOf history id ≠ none) ∧
      actionsOf history =
        Errand.actions m.semantics (w.tree.errands (m.grammar.planOf history) Tree.root)
  rejected : ∀ f, v = .rejected f → ∃ done stop ahead,
    w.tree.errands (m.grammar.planOf history) Tree.root ++ [.visit sentinel] =
        done ++ stop :: ahead ∧
      actionsOf history = Errand.actions m.semantics (done ++ [stop]) ∧ m.Stops current w f stop

section Ended

variable {done : List (Errand α)} {current : Lookahead}

/-- The visit of a node ends the run where it is. -/
theorem Underway.scheduled_of_visit {id : Nat} {stack : List (Frame α)} {w : Workspace}
    {history : List (Event α)} {v : Verdict}
    (U : m.Underway done ⟨⟨[], id⟩ :: stack, w, history⟩)
    (haccepted : v = .accepted → id = sentinel)
    (hrejected : ∀ f, v = .rejected f → m.Declines current w.tree id f) :
    m.Scheduled current v w history where
  wellLinked := U.rooted.toWellLinked
  childless := U.childless
  offered id p hp := (U.planned id p hp).1
  grown id p hp := .inl (U.grown id p hp)
  accepted hv := by
    obtain rfl := haccepted hv
    have T : m.Traversal w.tree history done (.visit sentinel :: pending stack) := U.toTraversal
    refine ⟨fun id nt hsign => ?_, T.eq_of_sentinel.1.symm ▸ T.actions⟩
    exact U.expanded id nt (T.mem_done_of_sentinel hsign nofun) hsign
  rejected f hv := by
    refine ⟨done, .visit id, pending stack, U.whole, ?_, .node (hrejected f hv)⟩
    rw [Errand.actions_append]
    exact U.actions.trans (List.append_nil _).symm

/-- An action fails behind errands that are done. -/
theorem Traversal.scheduled_of_fails {w : Workspace} {history : List (Event α)} {action : α}
    {id : Nat} {ahead : List (Errand α)} {f : Failure}
    (T : m.Traversal w.tree history (done ++ [.act action id]) ahead)
    (hfails : m.FailsIn action id f w)
    (hgrown : ∀ id p, m.grammar.planOf history id = some p →
      (w.tree.children id).map w.tree.sign? = p.right.map some ∨
        w.tree.children id = [] ∧ ∃ action, p.opening = some action ∧ m.FailsIn action id f w) :
    m.Scheduled current (.rejected f) w history where
  wellLinked := T.rooted.toWellLinked
  childless := T.childless
  offered id p hp := (T.planned id p hp).1
  grown id p hp := by
    refine (hgrown id p hp).imp_right fun ⟨hnil, action, hopening, h⟩ => ?_
    exact ⟨hnil, f, action, rfl, hopening, h⟩
  accepted hv := nomatch hv
  rejected f' hv := by
    cases hv
    exact ⟨done, .act action id, ahead, by simpa using T.whole, T.actions, .action hfails⟩

/-- Some of the actions that are due are done, up to one that fails. -/
theorem Traversal.fails (hm : m.semantics.Attributive) {due : List (α × Nat)} {c c' : Config α}
    {ahead : List (Errand α)} {f : Failure}
    (T : m.Traversal c.workspace.tree c.history done (ofDue due ++ ahead))
    (h : m.performAll due c = (.error f, c')) : ∃ done' action id ahead', (action, id) ∈ due ∧
      m.Traversal c'.workspace.tree c'.history (done' ++ [.act action id]) ahead' ∧
      m.FailsIn action id f c'.workspace := by
  obtain ⟨hacted, before, action, id, after, rfl, hactions, hfails⟩ := acted_performAll hm h
  have hdue : ofDue (before ++ (action, id) :: after) ++ ahead =
      ofDue (before ++ [(action, id)]) ++ (ofDue after ++ ahead) := by
    simp [ofDue]
  rw [hdue] at T
  have T' := T.advance hacted.bare (hacted.plan _) hactions (visit_not_mem_ofDue _ _)
  have hlast : done ++ ofDue (before ++ [(action, id)]) =
      (done ++ ofDue before) ++ [.act action id] := by
    simp [ofDue]
  rw [hlast] at T'
  exact ⟨_, action, id, _, List.mem_append_right _ List.mem_cons_self, T', hfails⟩

/-- The opening action of a production fails, and the node stays without children. -/
theorem Underway.scheduled_of_failed (hm : m.semantics.Attributive) {id : Nat}
    {stack : List (Frame α)} {w : Workspace} {history : List (Event α)}
    (U : m.Underway done ⟨⟨[], id⟩ :: stack, w, history⟩) {p : Production α}
    (hoffers : m.Offers w.tree id p) {index : Nat} (hp : m.grammar.productions[index]? = some p)
    {line : Nat} {f : Failure} {c' : Config α}
    (h : m.performAll (p.opening.toList.map fun action => (action, id))
      ⟨stack, w, .expanded id index line :: history⟩ = (.error f, c')) :
    m.Scheduled current (.rejected f) c'.workspace c'.history := by
  have T : m.Traversal w.tree history done (.visit id :: pending stack) := U.toTraversal
  have hplan := T.unplanned (T.not_mem_done List.mem_cons_self)
  have hplans := Grammar.planOf_expanded history id hp line
  obtain ⟨hacted, -⟩ := acted_performAll hm h
  have T₁ := T.expand hoffers hp line []
  rw [Tree.expansionErrands, Production.errands, ← ofDue_toList, List.append_assoc] at T₁
  obtain ⟨done', action, id', ahead, haction, T₂, hfails⟩ := T₁.fails hm h
  obtain ⟨opening, hopening, heq⟩ := List.mem_map.mp haction
  cases heq
  refine T₂.scheduled_of_fails hfails fun id' q hq => ?_
  rw [hacted.plan, hplans] at hq
  rw [Tree.children_eq_of_bare hacted.bare, funext (Tree.sign?_eq_of_bare hacted.bare)]
  split at hq
  next he =>
    cases hq
    exact .inr ⟨he ▸ T.childless id hplan, action, Option.mem_toList.mp hopening, he ▸ hfails⟩
  next => exact .inl (U.grown id' q hq)

/-- A step that ends a run ends it on schedule. -/
theorem Underway.scheduled (hm : m.semantics.Attributive) {c c' : Config α} {v : Verdict}
    {o : Outcome α} (U : m.Underway done c) (h : m.Stepped current c o) (ho : o = .ended v c') :
    m.Scheduled current v c'.workspace c'.history := by
  cases h with
  | blank => exact absurd rfl U.stack_ne_nil
  | @due frame stack w history f c₁ hdue =>
    cases ho
    have T := U.toTraversal
    rw [pending_cons] at T
    obtain ⟨done', action, id, ahead, -, T', hfails⟩ := T.fails hm (c := ⟨stack, w, history⟩) hdue
    obtain ⟨hacted, -⟩ := acted_performAll hm hdue
    refine T'.scheduled_of_fails hfails fun id p hp => .inl ?_
    rw [Tree.children_eq_of_bare hacted.bare, funext (Tree.sign?_eq_of_bare hacted.bare)]
    exact U.grown id p (hacted.plan _ ▸ hp)
  | @visited frame stack w history c₁ o hdue hvisited =>
    obtain ⟨hacted, -⟩ := acted_performAll hm hdue
    have U₁ := U.due_done hm hdue
    obtain ⟨stack₁, w₁, history₁⟩ := c₁
    obtain rfl : stack₁ = stack := hacted.stack
    subst ho
    cases hvisited with
    | astray => exact U₁.scheduled_of_visit nofun nofun
    | declined h =>
      refine U₁.scheduled_of_visit nofun fun f hf => ?_
      cases hf
      exact h
    | accepted _ _ hid => exact U₁.scheduled_of_visit (fun _ => hid) nofun
    | failed hoffers hp hopening => exact U₁.scheduled_of_failed hm hoffers hp hopening

end Ended

theorem scheduled_of_finishes (hm : m.semantics.Attributive) {tokens : List Token} {pool : Pool}
    {v : Verdict} {c : Config α} (h : m.Finishes tokens pool v c) :
    m.Scheduled (m.lookaheadAt tokens (countTaken c.history)) v c.workspace c.history := by
  obtain ⟨rest, c₁, hreaches, hs⟩ := finishes_iff.mp h
  obtain ⟨done, U⟩ := hreaches.exists_underway hm
  rw [countTaken_of_ended hs, ← hreaches.headD_eq]
  exact U.scheduled hm (stepped_step m _ _) hs

end Machine

/-- The actions of a run that comes to its end are those of its tree, in the order of a recursive
walk, and none of them is left out or run behind the failure. -/
theorem run_on_schedule (m : Machine α) (hm : m.semantics.Attributive) (tokens : List Token)
    (pool : Pool) :
    (∀ v c, m.Finishes tokens pool v c →
      m.Scheduled (m.lookaheadAt tokens (Machine.countTaken c.history)) v c.workspace c.history) ∧
    (let r := m.run tokens pool
     (r.verdict = .accepted ∨ ∃ f, r.verdict = .rejected f) →
      m.Scheduled (m.lookaheadAt tokens r.taken) r.verdict ⟨r.tree, r.pool⟩ r.history.reverse) := by
  refine ⟨fun v c h => Machine.scheduled_of_finishes hm h, fun h => ?_⟩
  obtain ⟨c, hfinishes, hworkspace, hhistory⟩ := Machine.exists_finishes_run h
  have htaken : (m.run tokens pool).taken = Machine.countTaken c.history := by
    rw [Run.taken, ← hhistory]
    exact List.countP_reverse
  rw [htaken, ← hworkspace, ← hhistory, List.reverse_reverse]
  exact Machine.scheduled_of_finishes hm hfinishes

inductive Mark where
  | opening
  | slot
  | closing
  /-- Never run. -/
  | silent
  deriving DecidableEq, Repr

/-- Pairs `S -> a S b | empty` with a mark wherever a production can have an action. -/
def marked : Machine Mark where
  grammar :=
    { terminals := ["a", "b"]
      nonTerminals := ["S"]
      productions :=
        [{ left := 0, right := [.terminal 0, .nonTerminal 0, .terminal 1],
           opening := some .opening, closing := some .closing,
           slots := [some .slot, some .silent, some .slot] },
         { left := 0, right := [], opening := some .opening, closing := some .closing }]
      start := 0 }
  table := blocks.table
  semantics
    | .silent, _ => none
    | _, _ => some fun w => (.ok (), w)

theorem attributive_marked : marked.semantics.Attributive := by
  intro mark id effect h w
  cases mark <;> cases h <;> rfl

/-- The outer block is entered, then the inner one, which fails when it is left. A pair with its
marks is accepted. -/
theorem run_on_schedule_blocks :
    (let r := blocks.run twoBlocks Pool.initial
     (r.actions.map fun a => (a.1, a.2.1)) = [(.enter, 2), (.enter, 5), (.leave, 3)] ∧
       blocks.Scheduled (blocks.lookaheadAt twoBlocks r.taken) r.verdict ⟨r.tree, r.pool⟩
         r.history.reverse) ∧
    let r := marked.run oneBlock Pool.initial
    r.verdict = .accepted ∧
      (r.actions.map fun a => (a.1, a.2.1)) = [(.opening, 0), (.slot, 2), (.opening, 3),
        (.closing, 3), (.slot, 4), (.closing, 0)] ∧
      marked.Scheduled (marked.lookaheadAt oneBlock r.taken) .accepted ⟨r.tree, r.pool⟩
        r.history.reverse := by
  have hrejected : (blocks.run twoBlocks Pool.initial).verdict =
      .rejected (.semantic (.stated "too many blocks") none) := by
    decide +kernel
  have haccepted : (marked.run oneBlock Pool.initial).verdict = .accepted := by decide +kernel
  have hscheduled := (run_on_schedule marked attributive_marked oneBlock Pool.initial).2
    (.inl haccepted)
  rw [haccepted] at hscheduled
  exact ⟨⟨by decide +kernel, (run_on_schedule blocks local_blocks.attributive twoBlocks
    Pool.initial).2 (.inr ⟨_, hrejected⟩)⟩, haccepted, by decide +kernel, hscheduled⟩

end PredictiveParsing
