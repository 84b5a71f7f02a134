import PredictiveParsing.Proofs.Parse.Boundaries
import PredictiveParsing.Proofs.Parse.Moments
import PredictiveParsing.Proofs.Tree.Outermost

/-!
# What a run did

A run does one errand after the other. `Did` lists the errands that were done with the workspace that
they left. Whatever is claimed of both can be proved by induction on it, from what one deed changes:
the attributes of its own node, the pool by an action, and the tree by children of a node that was
not visited before.

* `Deed.attrs_eq`, `Deed.ran`, `Moment.outermost_eq`: what a deed leaves as it is, and what an action
  among what is done comes to;
* `Reaches.did`, `Performs.did`: where a run comes to, and before each single action, everything was
  done errand by errand.
-/

namespace PredictiveParsing

variable {α : Type}

open Errand

/-- Whether there is an action or not, nothing of the tree changes but attributes of the node. -/
theorem Semantics.Local.tree_at {s : Semantics α} (hs : s.Local) {action : Option α} {id : Nat}
    {w w' : Workspace} {r : Except Failure Unit} (h : s.at action id w = (r, w')) :
    ∃ attrs, w'.tree = w.tree.setAttrs id attrs := by
  rw [Semantics.at] at h
  cases he : action.bind fun action => s action id with
  | none =>
    rw [he] at h
    cases h
    exact ⟨w.tree.attrs id, (Tree.setAttrs_attrs ..).symm⟩
  | some effect =>
    rw [he, Option.getD_some] at h
    obtain ⟨action, -, heffect⟩ := Option.bind_eq_some_iff.mp he
    obtain ⟨attrs, hattrs⟩ := hs action id effect heffect w
    rw [h] at hattrs
    exact ⟨attrs, hattrs⟩

theorem Semantics.becomes_at {s : Semantics α} {action : Option α} {id : Nat} {w w' : Workspace}
    {r : Except Failure Unit} (h : s.at action id w = (r, w')) : s.Becomes w.pool w'.pool := by
  cases action with
  | none =>
    cases h
    exact .refl
  | some action =>
    have hturn := Semantics.Turns.act (s := s) action id w
    rw [h] at hturn
    exact .single hturn

namespace Machine

variable {m : Machine α}

/-! ## What one deed changes -/

namespace Deed

variable {w w' : Workspace} {e : Errand α} {steps : List (Errand α)}

section

variable (hm : m.semantics.Local)

include hm

/-- The tree keeps its shape, or the node that is visited gets children. -/
theorem bare_cases (h : m.Deed w (e :: steps) w') : w'.tree.bare = w.tree.bare ∨
    ∃ id p, e = .visit id ∧ m.Offers w.tree id p ∧
      w'.tree.bare = (w.tree.attachAll id p.right).bare := by
  cases h with
  | acts h =>
    obtain ⟨attrs, htree⟩ := hm.tree_at h
    exact .inl (by rw [htree, Tree.bare_setAttrs])
  | passes => exact .inl rfl
  | takes => exact .inl (Tree.bare_setAttrs ..)
  | @grows id p w₁ hoffers h =>
    obtain ⟨attrs, htree⟩ := hm.tree_at h
    refine .inr ⟨id, p, rfl, hoffers, Tree.attachAll_bare_eq ?_ id p.right⟩
    rw [htree, Tree.bare_setAttrs]

theorem sign? (h : m.Deed w (e :: steps) w') {id : Nat} {s : Sign}
    (hsign : w.tree.sign? id = some s) : w'.tree.sign? id = some s := by
  rcases h.bare_cases hm with hbare | ⟨_, _, -, -, hbare⟩
  · rw [Tree.sign?_eq_of_bare hbare, hsign]
  · rw [Tree.sign?_eq_of_bare hbare, Tree.sign?_attachAll, if_pos (Tree.lt_size_of_sign? hsign),
      hsign]

theorem place? (h : m.Deed w (e :: steps) w') {id : Nat} {place : Nat × Nat}
    (hplace : w.tree.place? id = some place) : w'.tree.place? id = some place := by
  rcases h.bare_cases hm with hbare | ⟨_, _, -, -, hbare⟩
  · rw [Tree.place?_eq_of_bare hbare, hplace]
  · rw [Tree.place?_eq_of_bare hbare, Tree.place?_attachAll _ _ (Tree.lt_size_of_place? hplace),
      hplace]

/-- A deed changes the attributes of no other node, and those of its own by an action, or when a token
is taken. -/
theorem attrs_eq (h : m.Deed w steps w') {id : Nat} (hid : id < w.tree.size)
    (hact : ∀ action, .act action id ∉ steps)
    (hvisit : .visit id ∈ steps → ∃ nt, w.tree.sign? id = some (.nonTerminal nt)) :
    w'.tree.attrs id = w.tree.attrs id := by
  cases h with
  | @acts action id' w' h =>
    obtain ⟨attrs, htree⟩ := hm.tree_at h
    have hne : id ≠ id' := by
      rintro rfl
      exact hact action (List.mem_singleton_self _)
    rw [htree, Tree.attrs_setAttrs_of_ne hne]
  | passes => rfl
  | @takes current id' s hsign hs =>
    have hne : id ≠ id' := by
      rintro rfl
      obtain ⟨nt, hnt⟩ := hvisit (List.mem_singleton_self _)
      cases hsign.symm.trans hnt
      cases hs
    rw [Tree.attrs_setAttrs_of_ne hne]
  | @grows id' p w₁ hoffers h =>
    obtain ⟨_, _, _, hsign, -⟩ := hoffers
    have hid' := Tree.lt_size_of_sign? hsign
    obtain ⟨attrs, htree⟩ := hm.tree_at h
    rw [htree, Tree.attrs_attachAll (by rwa [Tree.size_setAttrs]) (by rwa [Tree.size_setAttrs])]
    by_cases he : id = id'
    · subst he
      cases hopening : p.opening with
      | none =>
        rw [hopening] at h
        cases h
        rw [← htree]
      | some action =>
        exact absurd (List.mem_cons_of_mem _ (act_mem_ofAction.mpr ⟨hopening, rfl⟩)) (hact action)
    · rw [Tree.attrs_setAttrs_of_ne he]

/-- An action that is among what is done runs before everything else that changes something. -/
theorem ran (h : m.Deed w steps w') {action : α} {id : Nat} (hact : .act action id ∈ steps) :
    ∃ w₁, m.semantics.at (some action) id w = (.ok (), w₁) ∧ w'.pool = w₁.pool ∧
      (id < w.tree.size → w'.tree.attrs id = w₁.tree.attrs id) := by
  cases h with
  | acts h =>
    cases List.mem_singleton.mp hact
    exact ⟨w', h, rfl, fun _ => rfl⟩
  | passes => cases List.mem_singleton.mp hact
  | takes => cases List.mem_singleton.mp hact
  | @grows id' p w₁ hoffers h =>
    obtain ⟨haction, rfl⟩ := act_mem_ofAction.mp ((List.mem_cons.mp hact).resolve_left nofun)
    rw [haction] at h
    obtain ⟨attrs, htree⟩ := hm.tree_at h
    refine ⟨w₁, h, rfl, fun hid => ?_⟩
    have hid₁ : id < w₁.tree.size := by rwa [htree, Tree.size_setAttrs]
    exact Tree.attrs_attachAll hid₁ hid₁ p.right

end

theorem becomes (h : m.Deed w steps w') : m.semantics.Becomes w.pool w'.pool := by
  cases h with
  | acts h => exact Semantics.becomes_at h
  | passes => exact .refl
  | takes => exact .refl
  | @grows id p w₁ _ h =>
    have hbecomes : m.semantics.Becomes w.pool w₁.pool := Semantics.becomes_at h
    exact hbecomes

end Deed

/-! ## The next deed -/

section Deed

variable {done ahead steps : List (Errand α)} {history : List (Event α)} {e : Errand α}
  {w w' : Workspace} {action : α} {id : Nat}

/-- An action that is done is the next errand, or it opens the node that is the next one. -/
theorem Deed.act_cases (ht : m.table.Fits m.grammar) (h : m.Deed w (e :: steps) w')
    (hact : .act action id ∈ e :: steps) :
    e = .act action id ∨
      e = .visit id ∧ ∃ p ∈ m.grammar.productions,
        w.tree.sign? id = some (.nonTerminal p.left) ∧ p.opening = some action := by
  cases h with
  | acts =>
    cases List.mem_singleton.mp hact
    exact .inl rfl
  | passes => cases List.mem_singleton.mp hact
  | takes => cases List.mem_singleton.mp hact
  | @grows id' p w₁ hoffers =>
    obtain ⟨hopening, rfl⟩ := act_mem_ofAction.mp ((List.mem_cons.mp hact).resolve_left nofun)
    obtain ⟨hp, hsign⟩ := mem_of_offers ht hoffers
    exact .inr ⟨rfl, p, hp, hsign, hopening⟩

/-- An action that opens no node is the next errand when it is done. -/
theorem Deed.eq_act (ht : m.table.Fits m.grammar) (h : m.Deed w (e :: steps) w')
    (hact : .act action id ∈ e :: steps)
    (hrole : ∀ p ∈ m.grammar.productions, p.opening ≠ some action) :
    e = .act action id ∧ m.semantics.at (some action) id w = (.ok (), w') := by
  rcases h.act_cases ht hact with rfl | ⟨-, p, hp, -, hopening⟩
  · cases h with
    | acts h => exact ⟨rfl, h⟩
  · exact absurd hopening (hrole p hp)

variable (M : m.Moment w.tree history done (e :: ahead)) (hdeed : m.Deed w (e :: steps) w')

include M hdeed

/-- A node is not visited again. -/
theorem Moment.visit_not_mem (hvisit : .visit id ∈ done) : .visit id ∉ e :: steps := by
  intro hmem
  have hnew : .visit id ∉ e :: ahead := fun hahead => M.not_mem_done hahead hvisit
  cases hdeed with
  | acts => cases List.mem_singleton.mp hmem
  | passes => exact hnew (List.mem_singleton.mp hmem ▸ List.mem_cons_self)
  | takes => exact hnew (List.mem_singleton.mp hmem ▸ List.mem_cons_self)
  | grows =>
    rcases List.mem_cons.mp hmem with he | hopening
    · exact hnew (he ▸ List.mem_cons_self)
    · exact visit_not_mem_ofAction _ _ _ hopening

/-- What stands at and below a node stays when all of it was visited. -/
theorem Moment.outermost_eq (hm : m.semantics.Local) (hid : id < w.tree.size)
    (hdone : ∀ x ∈ w.tree.subtree id, .visit x ∈ done) (s : Sign) :
    w'.tree.outermost s id = w.tree.outermost s id := by
  rcases hdeed.bare_cases hm with hbare | ⟨x, p, rfl, -, hbare⟩
  · exact Tree.outermost_eq_of_bare hbare s id
  · rw [Tree.outermost_eq_of_bare hbare]
    refine Tree.outermost_attachAll M.rooted.toWellLinked ?_ p.right id hid fun hx => ?_
    · exact M.lt_size (List.mem_append_right _ List.mem_cons_self)
    · exact M.not_mem_done List.mem_cons_self (hdone x hx)

theorem Moment.post_of_deed (ht : m.table.Fits m.grammar) (hact : .act action id ∈ e :: steps) :
    ∃ p ∈ m.grammar.productions, ∃ s, w.tree.sign? id = some s ∧ (action, s) ∈ p.posts := by
  rcases hdeed.act_cases ht hact with rfl | ⟨rfl, p, hp, hsign, hopening⟩
  · exact M.post ht (List.mem_append_right _ List.mem_cons_self)
  · exact ⟨p, hp, _, hsign, Production.opening_mem_posts hopening⟩

end Deed

/-! ## Runs -/

/-- A run that starts with the pool can do these errands, and this workspace is what they leave. -/
inductive Did (m : Machine α) (pool : Pool) : List (Errand α) → Workspace → Prop
  | start : Did m pool [] (m.start pool).workspace
  | next {done ahead steps : List (Errand α)} {e : Errand α} {history : List (Event α)}
      {w w' : Workspace} (h : Did m pool done w)
      (hmoment : m.Moment w.tree history done (e :: ahead)) (hdeed : m.Deed w (e :: steps) w') :
      Did m pool (done ++ e :: steps) w'

section Did

variable {pool : Pool} {done ahead : List (Errand α)} {c c' : Config α}

variable (hm : m.semantics.Attributive)

include hm

theorem Moment.acted {action : α} {id : Nat}
    (M : m.Moment c.workspace.tree c.history done (.act action id :: ahead))
    (h : m.perform action id c = (.ok (), c')) :
    m.Moment c'.workspace.tree c'.history (done ++ [.act action id]) ahead := by
  obtain ⟨hacted, hactions, -⟩ := acted_perform hm h
  have hsign := Tree.sign?_eq_of_bare hacted.bare
  exact
    { toTraversal := by
        have T : m.Traversal c.workspace.tree c.history done ([.act action id] ++ ahead) :=
          M.toTraversal
        exact T.advance hacted.bare (hacted.plan _) hactions (by simp)
      grown := by
        intro id' p hp
        rw [Tree.children_eq_of_bare hacted.bare, funext hsign]
        exact M.grown id' p (hacted.plan _ ▸ hp)
      expanded := by
        intro id' nt hid' hnt
        rw [hsign] at hnt
        rw [hacted.plan]
        refine M.expanded id' nt ((List.mem_append.mp hid').resolve_right ?_) hnt
        simp }

/-- Actions are done one after the other. -/
theorem Did.performAll {due : List (α × Nat)} (D : m.Did pool done c.workspace)
    (M : m.Moment c.workspace.tree c.history done (ofDue due ++ ahead))
    (h : m.performAll due c = (.ok (), c')) :
    m.Did pool (done ++ ofDue due) c'.workspace ∧
      m.Moment c'.workspace.tree c'.history (done ++ ofDue due) ahead := by
  induction due generalizing c done with
  | nil =>
    cases h
    have hnil : done ++ ofDue ([] : List (α × Nat)) = done := List.append_nil done
    rw [hnil]
    exact ⟨D, M⟩
  | cons head due ih =>
    obtain ⟨action, id⟩ := head
    rw [Machine.performAll] at h
    split at h
    next c₁ he =>
      have M₁ := M.acted hm he
      obtain ⟨D', M'⟩ := ih (D.next M (.acts (at_of_perform he))) M₁ h
      rw [List.append_assoc] at D' M'
      exact ⟨D', M'⟩
    next => cases h

/-- What is done by a step is done errand by errand. -/
theorem Did.stepped {current : Lookahead} {o : Outcome α} (U : m.Underway done c)
    (D : m.Did pool done c.workspace) (h : m.Stepped current c o) (ho : o.next? = some c') :
    ∃ done', m.Underway done' c' ∧ m.Did pool done' c'.workspace := by
  cases h with
  | blank => cases ho
  | due => cases ho
  | @visited frame stack w history c₁ o hdue hvisited =>
    obtain ⟨hacted, -⟩ := acted_performAll hm hdue
    have M : m.Moment w.tree history done (ofDue frame.due ++ .visit frame.node :: pending stack) :=
      pending_cons frame stack ▸ U.moment
    obtain ⟨D₁, M₁⟩ := Did.performAll (c := ⟨stack, w, history⟩) hm D M hdue
    have U₁ := U.due_done hm hdue
    obtain ⟨stack₁, w₁, history₁⟩ := c₁
    obtain rfl : stack₁ = stack := hacted.stack
    obtain ⟨steps, hdeed, U'⟩ := U₁.visited hm hvisited ho
    exact ⟨_, U', D₁.next M₁ hdeed⟩

variable {tokens : List Token} {rest : List Lookahead}

theorem Reaches.did (h : m.Reaches tokens pool rest c) :
    ∃ done, m.Underway done c ∧ m.Did pool done c.workspace := by
  induction h with
  | start => exact ⟨[], underway_start m _, .start⟩
  | moved _ hs ih =>
    obtain ⟨done, U, D⟩ := ih
    exact D.stepped hm U (stepped_step m _ _) (congrArg Outcome.next? hs)
  | taken _ hs ih =>
    obtain ⟨done, U, D⟩ := ih
    exact D.stepped hm U (stepped_step m _ _) (congrArg Outcome.next? hs)

/-- Before an action runs, it is the next errand, or it opens the node that is the next one. -/
theorem Performs.did {current : Lookahead} {action : α} {id : Nat} {w : Workspace}
    (U : m.Underway done c) (D : m.Did pool done c.workspace)
    (h : m.Performs current c action id w) :
    ∃ done' history e ahead, m.Did pool done' w ∧ m.Moment w.tree history done' (e :: ahead) ∧
      (e = .act action id ∨
        e = .visit id ∧ ∃ p, m.Offers w.tree id p ∧ p.opening = some action) := by
  cases h with
  | @due frame stack w history before after _ _ c₁ hdue h =>
    have hpending : pending (frame :: stack) = ofDue before ++
        .act action id :: (ofDue after ++ .visit frame.node :: pending stack) := by
      rw [pending_cons, hdue]
      simp [ofDue]
    have M : m.Moment w.tree history done (ofDue before ++
        .act action id :: (ofDue after ++ .visit frame.node :: pending stack)) :=
      hpending ▸ U.moment
    obtain ⟨D₁, M₁⟩ := Did.performAll (c := ⟨stack, w, history⟩) hm D M h
    exact ⟨_, _, _, _, D₁, M₁, .inl rfl⟩
  | @opening frame stack w history c₁ nt i p _ h hsign hi hp hslots haction =>
    have M : m.Moment w.tree history done (ofDue frame.due ++ .visit frame.node :: pending stack) :=
      pending_cons frame stack ▸ U.moment
    obtain ⟨D₁, M₁⟩ := Did.performAll (c := ⟨stack, w, history⟩) hm D M h
    obtain ⟨x, -, hx⟩ := Option.bind_eq_some_iff.mp hi
    exact ⟨_, _, _, _, D₁, M₁, .inr ⟨rfl, p, ⟨nt, x, i, hsign, hx, hp⟩, haction⟩⟩

end Did

/-! ## Some steps of a run -/

/-- Where the loop is after some steps, unless it has ended before. -/
def after (m : Machine α) (tokens : List Token) (pool : Pool) :
    Nat → Option (List Lookahead × Config α)
  | 0 => some (tokens.map (Lookahead.ofToken m.grammar), m.start pool)
  | n + 1 => do
    let (rest, c) ← after m tokens pool n
    match m.step (rest.headD (Lookahead.atEnd tokens)) c with
    | .moved c' => some (rest, c')
    | .taken c' => if rest = [] then none else some (rest.tail, c')
    | .ended _ _ => none

theorem reaches_of_after {tokens : List Token} {pool : Pool} {n : Nat} {rest : List Lookahead}
    {c : Config α} (h : m.after tokens pool n = some (rest, c)) :
    m.Reaches tokens pool rest c := by
  induction n generalizing rest c with
  | zero =>
    cases h
    exact .start
  | succ n ih =>
    obtain ⟨⟨rest₁, c₁⟩, hafter, hstep⟩ := Option.bind_eq_some_iff.mp h
    have hreaches := ih hafter
    simp only at hstep
    split at hstep
    next c' hs =>
      cases hstep
      exact hreaches.moved hs
    next c' hs =>
      cases rest₁ with
      | nil => cases hstep
      | cons current rest₁ =>
        cases hstep
        exact hreaches.taken hs
    next => cases hstep

/-- The first of the actions that are due is run before everything else. -/
theorem performs_head {current : Lookahead} {c : Config α} {action : α} {id : Nat}
    {due : List (α × Nat)} (h : c.stack.head?.map Frame.due = some ((action, id) :: due)) :
    m.Performs current c action id c.workspace := by
  obtain ⟨_ | ⟨frame, stack⟩, w, history⟩ := c
  · cases h
  · have hdue : frame.due = [] ++ (action, id) :: due := Option.some.inj h
    exact .due (c := ⟨stack, w, history⟩) hdue rfl

end Machine

end PredictiveParsing
