import PredictiveParsing.Proofs.Parse.Endings
import PredictiveParsing.Proofs.Parse.Steps

/-!
# The way of a run through its tree

A run does the errands of the tree that it grows, in their order. At every moment what it did and
what is on its stack are, one behind the other, the errands of the tree of that moment, with the
visit of the end mark as the last (`Traversal.whole`); an expansion puts the errands of the
production behind the visit of the node and changes nothing else.

* `Traversal.advance`, `Traversal.expand`: errands are done, a node is expanded;
* `Deed`: what becomes of the workspace when an errand is done;
* `Underway.step`, `Reaches.exists_underway`: this holds after every step of every run.
-/

namespace PredictiveParsing

variable {α : Type}

namespace Machine

variable {m : Machine α}

/-! ## What was done and what is ahead -/

/-- The errands that are done and those ahead are the errands of the tree and the end mark's. -/
structure Traversal (m : Machine α) (t : Tree) (history : List (Event α))
    (done ahead : List (Errand α)) : Prop where
  rooted : t.Rooted sentinel
  start : t.sign? Tree.root = some (.nonTerminal m.grammar.start)
  mark : t.sign? sentinel = some .pound
  whole : t.errands (m.grammar.planOf history) Tree.root ++ [.visit sentinel] = done ++ ahead
  fresh : .visit sentinel ∉ done
  actions : actionsOf history = Errand.actions m.semantics done
  childless : ∀ id, m.grammar.planOf history id = none → t.children id = []
  planned : ∀ id p, m.grammar.planOf history id = some p → m.Offers t id p ∧ .visit id ∈ done

namespace Traversal

variable {t : Tree} {history : List (Event α)} {done ahead : List (Errand α)}

theorem visits_eq (T : m.Traversal t history done ahead) :
    Errand.visits done ++ Errand.visits ahead = t.subtree Tree.root ++ [sentinel] := by
  rw [← Errand.visits_append, ← T.whole, Errand.visits_append,
    Tree.visits_errands T.rooted.toWellLinked T.childless _ T.rooted.root_lt]
  rfl

theorem nodup (T : m.Traversal t history done ahead) :
    (Errand.visits done ++ Errand.visits ahead).Nodup := by
  rw [T.visits_eq, List.nodup_append]
  refine ⟨Tree.nodup_subtree T.rooted.toWellLinked _ T.rooted.root_lt, List.nodup_singleton _, ?_⟩
  rintro id hid _ hs rfl
  obtain rfl := List.mem_singleton.mp hs
  obtain ⟨way, hway⟩ := (Tree.mem_subtree_iff T.rooted.toWellLinked T.rooted.root_lt).mp hid
  exact T.rooted.not_descends_apart hway

theorem lt_size (T : m.Traversal t history done ahead) {id : Nat}
    (h : .visit id ∈ done ++ ahead) : id < t.size := by
  rw [← Errand.mem_visits, Errand.visits_append, T.visits_eq, List.mem_append] at h
  rcases h with h | h
  · exact Tree.lt_size_of_mem_subtree T.rooted.toWellLinked T.rooted.root_lt h
  · exact List.mem_singleton.mp h ▸ T.rooted.apart_lt

theorem visit_mem (T : m.Traversal t history done ahead) {id : Nat} (h : id < t.size) :
    .visit id ∈ done ++ ahead := by
  rw [← Errand.mem_visits, Errand.visits_append, T.visits_eq, List.mem_append]
  by_cases hid : id = sentinel
  · exact .inr (List.mem_singleton.mpr hid)
  · obtain ⟨way, hway, -⟩ := T.rooted.existsUnique_descends h hid
    exact .inl ((Tree.mem_subtree_iff T.rooted.toWellLinked T.rooted.root_lt).mpr ⟨way, hway⟩)

/-- No node is visited twice. -/
theorem not_mem_done (T : m.Traversal t history done ahead) {id : Nat} (h : .visit id ∈ ahead) :
    .visit id ∉ done := by
  intro hdone
  exact (List.nodup_append.mp T.nodup).2.2 id (Errand.mem_visits.mpr hdone) id
    (Errand.mem_visits.mpr h) rfl

theorem not_mem_tail {id : Nat} (T : m.Traversal t history done (.visit id :: ahead)) :
    .visit id ∉ ahead := by
  rw [← Errand.mem_visits]
  exact (List.nodup_cons.mp (List.nodup_append.mp T.nodup).2.1).1

theorem unplanned (T : m.Traversal t history done ahead) {id : Nat} (h : .visit id ∉ done) :
    m.grammar.planOf history id = none := by
  cases hplan : m.grammar.planOf history id with
  | none => rfl
  | some p => exact absurd (T.planned id p hplan).2 h

theorem sentinel_mem (T : m.Traversal t history done ahead) : .visit sentinel ∈ ahead := by
  have hmem : Errand.visit sentinel ∈ done ++ ahead :=
    T.whole ▸ List.mem_append_right _ (List.mem_singleton_self _)
  exact (List.mem_append.mp hmem).resolve_left T.fresh

/-- A node with another sign is not the end mark's. -/
theorem ne_sentinel (T : m.Traversal t history done ahead) {id : Nat} {s : Sign}
    (hsign : t.sign? id = some s) (hs : s ≠ .pound) : id ≠ sentinel := by
  rintro rfl
  rw [T.mark] at hsign
  exact hs (Option.some.inj hsign).symm

/-- The errands at the end mark come last. -/
theorem eq_of_sentinel (T : m.Traversal t history done (.visit sentinel :: ahead)) :
    t.errands (m.grammar.planOf history) Tree.root = done ∧ ahead = [] := by
  have hwhole := T.whole
  rcases List.eq_nil_or_concat ahead with rfl | ⟨ahead', e, rfl⟩
  · exact ⟨List.append_inj_left' hwhole rfl, rfl⟩
  · rw [List.concat_eq_append, ← List.cons_append, ← List.append_assoc] at hwhole
    obtain ⟨-, he⟩ := List.append_inj' hwhole rfl
    refine absurd ?_ T.not_mem_tail
    rw [List.concat_eq_append, ← (List.cons.inj he).1]
    exact List.mem_append_right _ (List.mem_singleton_self _)

/-- Before the end mark every other node was visited. -/
theorem mem_done_of_sentinel (T : m.Traversal t history done (.visit sentinel :: ahead)) {id : Nat}
    {s : Sign} (hsign : t.sign? id = some s) (hs : s ≠ .pound) : .visit id ∈ done := by
  have hmem := T.visit_mem (Tree.lt_size_of_sign? hsign)
  rw [T.eq_of_sentinel.2, List.mem_append, List.mem_singleton] at hmem
  exact hmem.resolve_right fun h => T.ne_sentinel hsign hs (Errand.visit.inj h)

/-! ### Going on -/

theorem offers_congr {t' : Tree} {id : Nat} {p : Production α} (h : m.Offers t id p)
    (hsign : ∀ s, t.sign? id = some s → t'.sign? id = some s) : m.Offers t' id p := by
  obtain ⟨nt, x, index, hid, hrest⟩ := h
  exact ⟨nt, x, index, hsign _ hid, hrest⟩

/-- Errands are done while the tree keeps its shape. -/
theorem advance {steps : List (Errand α)} (T : m.Traversal t history done (steps ++ ahead))
    {t' : Tree} {history' : List (Event α)} (hbare : t'.bare = t.bare)
    (hplan : m.grammar.planOf history' = m.grammar.planOf history)
    (hactions : actionsOf history' = actionsOf history ++ Errand.actions m.semantics steps)
    (hfresh : .visit sentinel ∉ steps) : m.Traversal t' history' (done ++ steps) ahead where
  rooted := T.rooted.of_bare hbare
  start := (Tree.sign?_eq_of_bare hbare _).trans T.start
  mark := (Tree.sign?_eq_of_bare hbare _).trans T.mark
  whole := by rw [hplan, Tree.errands_eq_of_bare hbare, T.whole, List.append_assoc]
  fresh h := (List.mem_append.mp h).elim T.fresh hfresh
  actions := by rw [hactions, T.actions, Errand.actions_append]
  childless id h := by
    rw [Tree.children_eq_of_bare hbare]
    exact T.childless id (hplan ▸ h)
  planned id p h := by
    obtain ⟨hoffers, hdone⟩ := T.planned id p (hplan ▸ h)
    exact ⟨offers_congr hoffers fun s hs => (Tree.sign?_eq_of_bare hbare id).trans hs,
      List.mem_append_left _ hdone⟩

/-- A node is expanded and gets children, all that the production has or none. -/
theorem expand {id : Nat} (T : m.Traversal t history done (.visit id :: ahead))
    {p : Production α} (hoffers : m.Offers t id p) {index : Nat}
    (hp : m.grammar.productions[index]? = some p) (line : Nat) (u : List Sign) :
    m.Traversal (t.attachAll id u) (.expanded id index line :: history) (done ++ [.visit id])
      (Tree.expansionErrands p id t.size u.length ++ ahead) := by
  have hmem : .visit id ∈ done ++ .visit id :: ahead :=
    List.mem_append_right _ List.mem_cons_self
  have hid := T.lt_size hmem
  have hdone := T.not_mem_done (List.mem_cons_self (a := Errand.visit id))
  have hplan := T.unplanned hdone
  have hne : id ≠ sentinel := by
    obtain ⟨nt, _, _, hsign, -⟩ := hoffers
    exact T.ne_sentinel hsign nofun
  have hlate : ∀ id', t.size ≤ id' → m.grammar.planOf history id' = none := fun id' hid' =>
    T.unplanned fun hdone' => absurd (T.lt_size (List.mem_append_left _ hdone')) (by omega)
  have hsign : ∀ id' s, t.sign? id' = some s → (t.attachAll id u).sign? id' = some s := by
    intro id' s hs
    rw [Tree.sign?_attachAll, if_pos (Tree.lt_size_of_sign? hs), hs]
  have hplans := Grammar.planOf_expanded history id hp line
  exact
    { rooted := T.rooted.attachAll hid hne u
      start := hsign _ _ T.start
      mark := hsign _ _ T.mark
      whole := by
        have hwhole := congrArg (List.flatMap (Errand.unfold id
          (.visit id :: Tree.expansionErrands p id t.size u.length))) T.whole
        rw [Errand.flatMap_unfold hdone T.not_mem_tail, List.flatMap_append,
          ← Tree.errands_attachAll T.rooted.toWellLinked hid hplan (T.childless id hplan) hlate p u
            _ T.rooted.root_lt, Errand.flatMap_unfold_of_not_mem
            fun h => hne (Errand.visit.inj (List.mem_singleton.mp h))] at hwhole
        rw [funext hplans, hwhole, List.append_assoc]
        rfl
      fresh := fun h => (List.mem_append.mp h).elim T.fresh fun h =>
        hne (Errand.visit.inj (List.mem_singleton.mp h)).symm
      actions := by
        rw [actionsOf_expanded, T.actions, Errand.actions_append]
        exact (List.append_nil _).symm
      childless := by
        intro id' hid'
        rw [hplans] at hid'
        split at hid'
        next => cases hid'
        next hne' => rw [Tree.children_attachAll_of_ne hne', T.childless id' hid']
      planned := by
        intro id' q hq
        rw [hplans] at hq
        split at hq
        next he =>
          cases hq
          subst he
          exact ⟨offers_congr hoffers (hsign id'),
            List.mem_append_right _ (List.mem_singleton_self _)⟩
        next =>
          obtain ⟨hoffers', hdone'⟩ := T.planned id' q hq
          exact ⟨offers_congr hoffers' (hsign id'), List.mem_append_left _ hdone'⟩ }

end Traversal

/-! ## Deeds -/

/-- What becomes of a workspace when the errand at the head of the list is done: an action is run, an
empty node is passed, a token is taken, or a node is expanded, which does its opening action, too. -/
inductive Deed (m : Machine α) (w : Workspace) : List (Errand α) → Workspace → Prop
  | acts {action : α} {id : Nat} {w' : Workspace}
      (h : m.semantics.at (some action) id w = (.ok (), w')) : Deed m w [.act action id] w'
  | passes {id : Nat} (hsign : w.tree.sign? id = some .empty) : Deed m w [.visit id] w
  | takes (current : Lookahead) {id : Nat} {s : Sign} (hsign : w.tree.sign? id = some s)
      (hs : s.matched = true) :
      Deed m w [.visit id]
        ⟨w.tree.setAttrs id
          { w.tree.attrs id with lexical := some current.text, line := some current.line }, w.pool⟩
  | grows {id : Nat} {p : Production α} {w₁ : Workspace} (hoffers : m.Offers w.tree id p)
      (hopening : m.semantics.at p.opening id w = (.ok (), w₁)) :
      Deed m w (.visit id :: Errand.ofAction p.opening id) ⟨w₁.tree.attachAll id p.right, w₁.pool⟩

/-! ## Runs on their way -/

/-- What is ahead of the run is on its stack, and its tree was grown by the productions. -/
structure Underway (m : Machine α) (done : List (Errand α)) (c : Config α) : Prop extends
    m.Traversal c.workspace.tree c.history done (pending c.stack) where
  grown : ∀ id p, m.grammar.planOf c.history id = some p →
    (c.workspace.tree.children id).map c.workspace.tree.sign? = p.right.map some
  expanded : ∀ id nt, .visit id ∈ done → c.workspace.tree.sign? id = some (.nonTerminal nt) →
    m.grammar.planOf c.history id ≠ none
  takers : takersOf c.history = (Errand.visits done).filter c.workspace.tree.takes
  due : ∀ frame ∈ c.stack, ∀ a ∈ frame.due,
    a.2 = frame.node ∨ ∃ nt, c.workspace.tree.sign? a.2 = some (.nonTerminal nt)

theorem underway_start (m : Machine α) (pool : Pool) : m.Underway [] (m.start pool) := by
  have hlinked : (m.start pool).workspace.tree.WellLinked :=
    (Tree.wellLinked_ofRoot (.nonTerminal m.grammar.start)).alloc .pound
  have hchildren : ∀ id, (m.start pool).workspace.tree.children id = [] := by
    rintro (_ | _ | id) <;> rfl
  exact
    { rooted :=
        { toWellLinked := hlinked
          apart_lt := Nat.lt_succ_self 1
          apart_ne := nofun
          apart_place := rfl
          apart_childless := rfl
          orphan := by
            rintro (_ | _ | id) hid -
            · exact .inl rfl
            · exact .inr rfl
            · exact absurd hid (by simp [start]) }
      start := rfl
      mark := rfl
      whole := by
        have hroot : Tree.root < (m.start pool).workspace.tree.size := Nat.zero_lt_succ 1
        rw [Tree.errands_of_unplanned hlinked hroot rfl]
        rfl
      fresh := List.not_mem_nil
      actions := rfl
      childless := fun id _ => hchildren id
      planned := fun _ _ h => nomatch h
      grown := fun _ _ h => nomatch h
      expanded := fun _ _ h => absurd h List.not_mem_nil
      takers := rfl
      due := by
        intro frame hframe a ha
        simp only [start, List.mem_cons, List.not_mem_nil, or_false] at hframe
        rcases hframe with rfl | rfl
        · cases ha
        · cases ha }

section Underway

variable {done : List (Errand α)} {c c' : Config α}

theorem Underway.stack_ne_nil (U : m.Underway done c) : c.stack ≠ [] := by
  intro hstack
  have hmem := U.sentinel_mem
  rw [hstack] at hmem
  exact List.not_mem_nil hmem

/-- Errands are done that expand no node. -/
theorem Underway.advance {steps : List (Errand α)} (U : m.Underway done c)
    (hpending : pending c.stack = steps ++ pending c'.stack)
    (hbare : c'.workspace.tree.bare = c.workspace.tree.bare)
    (hplan : m.grammar.planOf c'.history = m.grammar.planOf c.history)
    (hactions : actionsOf c'.history = actionsOf c.history ++ Errand.actions m.semantics steps)
    (htakers : takersOf c'.history =
      takersOf c.history ++ (Errand.visits steps).filter c.workspace.tree.takes)
    (hsteps : ∀ id, .visit id ∈ steps → id ≠ sentinel ∧
      ∀ nt, c.workspace.tree.sign? id ≠ some (.nonTerminal nt))
    (hstack : ∀ frame ∈ c'.stack, ∃ frame' ∈ c.stack, frame.node = frame'.node ∧
      frame.due ⊆ frame'.due) : m.Underway (done ++ steps) c' := by
  have hsign := Tree.sign?_eq_of_bare hbare
  exact
    { toTraversal := by
        have T := U.toTraversal
        rw [hpending] at T
        exact T.advance hbare hplan hactions fun h => (hsteps sentinel h).1 rfl
      grown := by
        intro id p hp
        rw [Tree.children_eq_of_bare hbare, funext hsign]
        exact U.grown id p (hplan ▸ hp)
      expanded := by
        intro id nt hid hnt
        rw [hsign] at hnt
        rw [hplan]
        rcases List.mem_append.mp hid with hid | hid
        · exact U.expanded id nt hid hnt
        · exact absurd hnt ((hsteps id hid).2 nt)
      takers := by
        rw [htakers, U.takers, Tree.takes_eq_of_bare hbare, Errand.visits_append,
          List.filter_append]
      due := by
        intro frame hframe a ha
        obtain ⟨frame', hframe', hnode, hsubset⟩ := hstack frame hframe
        rw [hnode, hsign]
        exact U.due frame' hframe' a (hsubset ha) }

theorem visits_ofDue (due : List (α × Nat)) : Errand.visits (ofDue due) = [] := by
  induction due with
  | nil => rfl
  | cons head due ih => exact ih

theorem visit_not_mem_ofDue (due : List (α × Nat)) (id : Nat) : Errand.visit id ∉ ofDue due := by
  rw [← Errand.mem_visits, visits_ofDue]
  exact List.not_mem_nil

theorem mem_prepend {due : List (α × Nat)} {stack : List (Frame α)} {frame : Frame α}
    (h : frame ∈ stack) : ∃ frame' ∈ prepend due stack, frame.node = frame'.node ∧
      frame.due ⊆ frame'.due := by
  cases stack with
  | nil => cases h
  | cons top stack =>
    rcases List.mem_cons.mp h with rfl | h
    · exact ⟨_, List.mem_cons_self, rfl, List.subset_append_right _ _⟩
    · exact ⟨frame, List.mem_cons_of_mem _ h, rfl, List.Subset.refl _⟩

/-- After an expansion an action is due at the expanded node, at its own frame's node, or as it was
before. -/
theorem of_mem_expansion {p : Production α} {first id : Nat} {stack : List (Frame α)}
    {frame : Frame α} (h : frame ∈ prepend (p.opening.toList.map fun action => (action, id))
      (frames first p.slots ++ below p id stack)) {a : α × Nat} (ha : a ∈ frame.due) :
    a.2 = id ∨ a.2 = frame.node ∨ ∃ frame' ∈ stack, frame.node = frame'.node ∧ a ∈ frame'.due := by
  obtain ⟨frame₁, hframe₁, hnode₁, hdue₁⟩ := of_mem_prepend h
  rcases hdue₁ a ha with hopening | ha₁
  · obtain ⟨action, -, rfl⟩ := List.mem_map.mp hopening
    exact .inl rfl
  · rcases List.mem_append.mp hframe₁ with hframe₁ | hframe₁
    · exact .inr (.inl (((node_of_mem_frames hframe₁).2 a ha₁).trans hnode₁.symm))
    · obtain ⟨frame', hframe', hnode', hdue'⟩ := of_mem_below hframe₁
      exact (hdue' a ha₁).imp_right fun ha' =>
        .inr ⟨frame', hframe', hnode₁.trans hnode', ha'⟩

/-- An expanded node takes no token, nor do its children yet. -/
theorem Traversal.filter_takes_attachAll {t : Tree} {history : List (Event α)}
    {ahead : List (Errand α)} {id nt : Nat}
    (T : m.Traversal t history done (.visit id :: ahead))
    (hnt : t.sign? id = some (.nonTerminal nt)) (u : List Sign) :
    (Errand.visits (done ++ [.visit id])).filter (t.attachAll id u).takes =
      (Errand.visits done).filter t.takes := by
  have hsign : ∀ id' < t.size, (t.attachAll id u).sign? id' = t.sign? id' := by
    intro id' hid'
    rw [Tree.sign?_attachAll, if_pos hid']
  have htop : (t.attachAll id u).takes id = false :=
    Tree.takes_of_sign? ((hsign id (Tree.lt_size_of_sign? hnt)).trans hnt)
  rw [Errand.visits_append, List.filter_append]
  refine (congrArg₂ (· ++ ·) (List.filter_congr fun id' hid' => ?_) ?_).trans (List.append_nil _)
  · have hlt := T.lt_size (List.mem_append_left _ (Errand.mem_visits.mp hid'))
    rw [Tree.takes, hsign id' hlt, Tree.takes]
  · simp [Errand.visits, Errand.visited?, htop]

/-- Actions that are due before everything else are done. -/
theorem Underway.acted {due : List (α × Nat)} {stack : List (Frame α)} {w w' : Workspace}
    {history history' : List (Event α)} (U : m.Underway done ⟨prepend due stack, w, history⟩)
    (hstack : stack ≠ []) (hbare : w'.tree.bare = w.tree.bare)
    (hplan : m.grammar.planOf history' = m.grammar.planOf history)
    (htakers : takersOf history' = takersOf history)
    (hactions : actionsOf history' =
      actionsOf history ++ Errand.actions m.semantics (ofDue due)) :
    m.Underway (done ++ ofDue due) ⟨stack, w', history'⟩ := by
  refine U.advance (pending_prepend due hstack) hbare hplan hactions ?_ ?_ ?_
  · rw [visits_ofDue, List.filter_nil, List.append_nil]
    exact htakers
  · exact fun id hid => absurd hid (visit_not_mem_ofDue due id)
  · exact fun frame hframe => mem_prepend hframe

/-- The actions due before the node on top are done. -/
theorem Underway.due_done {frame : Frame α} {stack : List (Frame α)} {w : Workspace}
    {history : List (Event α)} (hm : m.semantics.Attributive)
    (U : m.Underway done ⟨frame :: stack, w, history⟩)
    (hdue : m.performAll frame.due ⟨stack, w, history⟩ = (.ok (), c')) :
    m.Underway (done ++ ofDue frame.due) ⟨⟨[], frame.node⟩ :: stack, c'.workspace, c'.history⟩ := by
  obtain ⟨hacted, hactions⟩ := acted_performAll hm hdue
  have htop : frame :: stack = prepend frame.due (⟨[], frame.node⟩ :: stack) := by
    rw [prepend, List.append_nil]
  rw [htop] at U
  exact U.acted (List.cons_ne_nil _ _) hacted.bare (hacted.plan _) hacted.takers hactions

/-- A node is visited that is not expanded. -/
theorem Underway.passed {id : Nat} {stack : List (Frame α)} {w w' : Workspace}
    {history history' : List (Event α)} (U : m.Underway done ⟨⟨[], id⟩ :: stack, w, history⟩)
    (hbare : w'.tree.bare = w.tree.bare)
    (hplan : m.grammar.planOf history' = m.grammar.planOf history)
    (hactions : actionsOf history' = actionsOf history)
    (htakers : takersOf history' = takersOf history ++ [id].filter w.tree.takes)
    (hid : id ≠ sentinel) (hsign : ∀ nt, w.tree.sign? id ≠ some (.nonTerminal nt)) :
    m.Underway (done ++ [.visit id]) ⟨stack, w', history'⟩ := by
  refine U.advance (pending_cons _ _) hbare hplan ?_ htakers ?_ ?_
  · exact hactions.trans (List.append_nil _).symm
  · intro id' hid'
    cases List.mem_singleton.mp hid'
    exact ⟨hid, hsign⟩
  · exact fun frame hframe => ⟨frame, List.mem_cons_of_mem _ hframe, rfl, List.Subset.refl _⟩

/-- The node on top gets its children. -/
theorem Underway.branched {id : Nat} {stack : List (Frame α)} {tree : Tree} {pool : Pool}
    {history : List (Event α)} (U : m.Underway done ⟨⟨[], id⟩ :: stack, ⟨tree, pool⟩, history⟩)
    {p : Production α} (hoffers : m.Offers tree id p) {index : Nat}
    (hp : m.grammar.productions[index]? = some p) (hslots : p.slots.length = p.right.length)
    (line : Nat) :
    m.Underway (done ++ [.visit id])
      ⟨prepend (p.opening.toList.map fun action => (action, id))
        (frames tree.size p.slots ++ below p id stack), ⟨tree.attachAll id p.right, pool⟩,
        .expanded id index line :: history⟩ := by
  have T : m.Traversal tree history done (.visit id :: pending stack) := U.toTraversal
  have ⟨nt, _, _, hnt, _⟩ := hoffers
  have hid := Tree.lt_size_of_sign? hnt
  have hplan := T.unplanned (T.not_mem_done List.mem_cons_self)
  have hplans := Grammar.planOf_expanded history id hp line
  have hsign : ∀ id' < tree.size, (tree.attachAll id p.right).sign? id' = tree.sign? id' := by
    intro id' hid'
    rw [Tree.sign?_attachAll, if_pos hid']
  have hstack : stack ≠ [] := by
    rintro rfl
    have hmem := T.sentinel_mem
    exact T.ne_sentinel hnt nofun (Errand.visit.inj (List.mem_singleton.mp hmem)).symm
  exact
    { toTraversal := by
        have T' := T.expand hoffers hp line p.right
        rw [← hslots, ← pending_expansion hstack] at T'
        exact T'
      grown := by
        intro id' q hq
        simp only at hq ⊢
        rw [hplans] at hq
        split at hq
        next he =>
          cases hq
          rw [he, Tree.children_attachAll hid, T.childless id hplan, List.nil_append,
            Tree.map_sign?_attachAll]
        next he =>
          rw [Tree.children_attachAll_of_ne he, ← U.grown id' q hq]
          exact List.map_congr_left fun c hc => hsign c (T.rooted.lt_child hc).2
      expanded := by
        intro id' nt' hid' hnt'
        simp only at hnt' ⊢
        rw [hplans]
        rcases List.mem_append.mp hid' with hid' | hid'
        · rw [hsign id' (T.lt_size (List.mem_append_left _ hid'))] at hnt'
          split
          · exact nofun
          · exact U.expanded id' nt' hid' hnt'
        · rw [if_pos (Errand.visit.inj (List.mem_singleton.mp hid'))]
          exact nofun
      takers := (takersOf_expanded ..).trans (U.takers.trans (T.filter_takes_attachAll hnt _).symm)
      due := by
        intro frame hframe a ha
        rcases of_mem_expansion hframe ha with he | he | ⟨frame', hframe', hnode, ha⟩
        · exact .inr ⟨nt, by rw [he, hsign id hid, hnt]⟩
        · exact .inl he
        · rw [hnode]
          refine (U.due frame' (List.mem_cons_of_mem _ hframe') a ha).imp_right fun ⟨nt', ha⟩ => ?_
          exact ⟨nt', (hsign _ (Tree.lt_size_of_sign? ha)).trans ha⟩ }

theorem at_of_perform {action : α} {id : Nat} {c c₁ : Config α} {r : Except Failure Unit}
    (h : m.perform action id c = (r, c₁)) :
    m.semantics.at (some action) id c.workspace = (r, c₁.workspace) := by
  obtain ⟨history, hperform⟩ := perform_eq (m := m) action id c
  obtain ⟨hresult, hconfig⟩ := Prod.mk.inj (hperform.symm.trans h)
  exact Prod.ext hresult (congrArg Config.workspace hconfig)

theorem at_of_performAll {action : Option α} {id : Nat} {c c₁ : Config α}
    (h : m.performAll (action.toList.map fun action => (action, id)) c = (.ok (), c₁)) :
    m.semantics.at action id c.workspace = (.ok (), c₁.workspace) := by
  cases action with
  | none =>
    cases h
    rfl
  | some action =>
    rw [Option.toList_some, List.map_singleton, performAll] at h
    split at h
    next c₂ he =>
      cases h
      exact at_of_perform he
    next => cases h

/-- The visit of a node keeps a run on its way. -/
theorem Underway.visited (hm : m.semantics.Attributive) {current : Lookahead} {id : Nat}
    {stack : List (Frame α)} {w : Workspace} {history : List (Event α)} {o : Outcome α}
    (U : m.Underway done ⟨⟨[], id⟩ :: stack, w, history⟩)
    (h : m.Visited current id ⟨stack, w, history⟩ o) (ho : o.next? = some c') :
    ∃ steps, m.Deed w (.visit id :: steps) c'.workspace ∧
      m.Underway (done ++ .visit id :: steps) c' := by
  have hpassed : ∀ {s}, w.tree.sign? id = some s → s.isNonTerminal = false →
      ∀ nt, w.tree.sign? id ≠ some (.nonTerminal nt) := by
    intro s hsign hs nt hnt
    rw [hsign] at hnt
    cases hnt
    cases hs
  cases h with
  | astray => cases ho
  | declined => cases ho
  | failed => cases ho
  | accepted => cases ho
  | passed hsign =>
    cases ho
    refine ⟨[], .passes hsign,
      U.passed rfl rfl rfl ?_ (U.ne_sentinel hsign nofun) (hpassed hsign rfl)⟩
    rw [List.filter_singleton, Tree.takes_of_sign? hsign]
    exact (List.append_nil _).symm
  | @taken s hsign hs _ hid =>
    cases ho
    have hnt : s.isNonTerminal = false := by
      cases s with
      | nonTerminal => cases hs
      | _ => rfl
    refine ⟨[], .takes current hsign hs,
      U.passed (Tree.bare_setAttrs ..) rfl (actionsOf_took ..) ?_ hid (hpassed hsign hnt)⟩
    rw [takersOf_took, List.filter_singleton, Tree.takes_of_sign? hsign, hs]
    rfl
  | @expanded index p c₁ hoffers hp hslots hopening =>
    cases ho
    have hat := at_of_performAll hopening
    obtain ⟨hacted, hactions⟩ := acted_performAll hm hopening
    have U' := U.branched hoffers hp hslots current.line
    obtain ⟨stack₁, w₁, history₁⟩ := c₁
    obtain rfl : stack₁ = stack := hacted.stack
    have hsize : w₁.tree.size = w.tree.size := Tree.size_eq_of_bare hacted.bare
    have hstack : frames w.tree.size p.slots ++ below p id stack₁ ≠ [] :=
      prepend_eq_nil.not.mp U'.stack_ne_nil
    refine ⟨Errand.ofAction p.opening id, .grows hoffers hat, ?_⟩
    rw [← ofDue_toList, List.append_cons]
    exact (hsize ▸ U').acted (hsize ▸ hstack) (Tree.attachAll_bare_eq hacted.bare id p.right)
      (hacted.plan _) hacted.takers hactions

/-- A step keeps a run on its way. -/
theorem Underway.step (hm : m.semantics.Attributive) {current : Lookahead} {o : Outcome α}
    (U : m.Underway done c) (h : m.Stepped current c o) (ho : o.next? = some c') :
    ∃ done', m.Underway done' c' := by
  cases h with
  | blank => cases ho
  | due => cases ho
  | @visited frame stack w history c₁ o hdue hvisited =>
    obtain ⟨hacted, -⟩ := acted_performAll hm hdue
    have U₁ := U.due_done hm hdue
    obtain ⟨stack₁, w₁, history₁⟩ := c₁
    obtain rfl : stack₁ = stack := hacted.stack
    obtain ⟨steps, -, U'⟩ := U₁.visited hm hvisited ho
    exact ⟨_, U'⟩

end Underway

theorem Reaches.exists_underway (hm : m.semantics.Attributive) {tokens : List Token} {pool : Pool}
    {rest : List Lookahead} {c : Config α} (h : m.Reaches tokens pool rest c) :
    ∃ done, m.Underway done c := by
  induction h with
  | start => exact ⟨[], underway_start m _⟩
  | moved _ hs ih =>
    obtain ⟨done, U⟩ := ih
    exact U.step hm (stepped_step m _ _) (congrArg Outcome.next? hs)
  | taken _ hs ih =>
    obtain ⟨done, U⟩ := ih
    exact U.step hm (stepped_step m _ _) (congrArg Outcome.next? hs)

end Machine

end PredictiveParsing
