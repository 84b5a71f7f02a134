import PredictiveParsing.Proofs.Cminus.Decisions
import PredictiveParsing.Proofs.Parse.Course

/-!
# Evaluating attributes without a tree

A walk writes attributes into an arena of nodes. What an action sees there depends only on attributes
that are final by then: those of its own node, of the node's children, of the siblings before it, of
its parent, and the function named further up. `follow` computes the attributes of a course from
these alone, and `walk_follow` says that a walk writes just what `follow` gives and leaves its pool,
also where it fails. For a forest `eval` is the same without the pool of a failure (`walk_eval`).
-/

namespace PredictiveParsing.Cminus

/-! ## The function around a node -/

/-- On the way up from a node there are never more nodes than its number. -/
theorem functionUpTo_eq {t : Tree} (ht : t.Linked) {bound bound' id : Nat} (h : id < bound)
    (h' : id < bound') : functionUpTo t bound id = functionUpTo t bound' id := by
  induction bound generalizing bound' id with
  | zero => omega
  | succ bound ih =>
    obtain ⟨bound', rfl⟩ := Nat.exists_eq_succ_of_ne_zero (Nat.ne_zero_of_lt h')
    rw [functionUpTo, functionUpTo]
    cases (t.attrs id).function with
    | some function => rfl
    | none =>
      cases hp : t.parent? id with
      | none => rfl
      | some parent =>
        have hlt := ht id parent hp
        exact ih (by omega) (by omega)

theorem functionUpTo_congr {t t' : Tree} (ht : t.Linked) {bound id : Nat}
    (h : ∀ i ≤ id, t'.node? i = t.node? i) :
    functionUpTo t' bound id = functionUpTo t bound id := by
  induction bound generalizing id with
  | zero => rfl
  | succ bound ih =>
    rw [functionUpTo, functionUpTo, Tree.attrs_congr (h id (Nat.le_refl _)),
      Tree.parent?_congr (h id (Nat.le_refl _))]
    cases (t.attrs id).function with
    | some function => rfl
    | none =>
      cases hp : t.parent? id with
      | none => rfl
      | some parent =>
        have hlt := ht id parent hp
        exact ih fun i hi => h i (by omega)

theorem enclosingFunction_congr {t t' : Tree} (ht : t.Linked) {id : Nat} (hid : id < t.size)
    (hid' : id < t'.size) (h : ∀ i ≤ id, t'.node? i = t.node? i) :
    enclosingFunction t' id = enclosingFunction t id := by
  rw [enclosingFunction, functionUpTo_congr ht h, functionUpTo_eq ht hid' hid, enclosingFunction]

theorem enclosingFunction_eq {t : Tree} (ht : t.Linked) {id : Nat} (hid : id < t.size) :
    enclosingFunction t id =
      (t.attrs id).function.or ((t.parent? id).bind (enclosingFunction t)) := by
  obtain ⟨bound, hb⟩ := Nat.exists_eq_succ_of_ne_zero (Nat.ne_zero_of_lt hid)
  rw [enclosingFunction, hb, functionUpTo]
  cases (t.attrs id).function with
  | some function => rfl
  | none =>
    cases hp : t.parent? id with
    | none => rfl
    | some parent =>
      have hlt := ht id parent hp
      simp only [Option.none_or, Option.bind_some, enclosingFunction]
      exact functionUpTo_eq ht (by omega) (by omega)

/-! ## Evaluation -/

/-- What lies around some siblings: those before them, the nearest first, their parent, and the
function that is named at the parent or further up. -/
structure Around where
  before : List Attributes := []
  parent? : Option Attributes := none
  function? : Option String := none

namespace Around

/-- The first of the siblings as an action sees it. -/
def site (a : Around) (own : Attributes) (children : List Attributes) (pool : Pool) : Site where
  own := own
  child? i := children[i]?
  sibling? back := a.parent?.bind fun _ => (own :: a.before)[back]?
  parent? := a.parent?
  function? := own.function.or a.function?
  pool := pool

/-- What is around the siblings after one with these attributes. -/
def past (a : Around) (own : Attributes) : Around := { a with before := own :: a.before }

/-- What is around the children of a node with these attributes. -/
def inside (a : Around) (own : Attributes) : Around where
  parent? := some own
  function? := own.function.or a.function?

end Around

def Change.apply (change : Change) (pool : Pool) : Attributes × Pool :=
  (change.attrs,
    match change.binding with
    | some binding => pool.declare binding
    | none => pool)

/-- The attributes of a node and the pool after an action, if there is one. -/
def act (a : Around) (children : List Attributes) (action : Option Action)
    (state : Attributes × Pool) : Except Complaint (Attributes × Pool) :=
  match action with
  | none => .ok state
  | some action => do
    let change ← action.judge (a.site state.1 children state.2)
    return change.apply state.2

/-- The attributes of the roots of a forest, and the pool after it. -/
def eval : Forest Action → Around → List (Option Action) → Pool →
    Except Complaint (List Attributes × Pool)
  | .nil, _, _, pool => .ok ([], pool)
  | .leaf _ token rest, a, slots, pool => do
    let (own, pool) ← act a [] slots.head?.join ({}, pool)
    let own := { own with lexical := some token.text, line := some token.line }
    let (later, pool) ← eval rest (a.past own) slots.tail pool
    return (own :: later, pool)
  | .node p below rest, a, slots, pool => do
    let state ← act a [] slots.head?.join ({}, pool)
    let (own, pool) ← act a [] p.opening state
    let (children, pool) ← eval below (a.inside own) p.slots pool
    let (own, pool) ← act a children p.closing (own, pool)
    let (later, pool) ← eval rest (a.past own) slots.tail pool
    return (own :: later, pool)

/-- Computations that change a pool until they are through or fail. -/
abbrev Evaluation := ExceptT Failure (StateM Pool)

/-- The outcome of a computation and the pool that it leaves. -/
def Evaluation.on {β : Type} (x : Evaluation β) (pool : Pool) : Except Failure β × Pool :=
  x.run.run pool

theorem Evaluation.on_bind {β γ : Type} (x : Evaluation β) (f : β → Evaluation γ) (pool : Pool) :
    Evaluation.on (x >>= f) pool =
      match x.on pool with
      | (.ok b, pool) => (f b).on pool
      | (.error failure, pool) => (.error failure, pool) := by
  show (match x.run.run pool with | (r, pool) => (ExceptT.bindCont f r).run pool) = _
  rw [on]
  rcases x.run.run pool with ⟨_ | _, _⟩
  · rfl
  · rfl

/-- Run an action at a node with these attributes. -/
def perform (a : Around) (children : List Attributes) (action : Option Action) (own : Attributes) :
    Evaluation Attributes := fun pool =>
  match act a children action (own, pool) with
  | .ok (own, pool) => (.ok own, pool)
  | .error complaint => (.error complaint.failure, pool)

/-- The attributes of the roots of a course, unless it fails. -/
def follow : Course Action → Around → List (Option Action) → Evaluation (List Attributes)
  | .nil, _, _ => return []
  | .stop failure _, a, slots => do
    let _ ← perform a [] slots.head?.join {}
    throw failure
  | .leaf _ token rest, a, slots => do
    let own ← perform a [] slots.head?.join {}
    let own := { own with lexical := some token.text, line := some token.line }
    let later ← follow rest (a.past own) slots.tail
    return own :: later
  | .node p below rest, a, slots => do
    let own ← perform a [] slots.head?.join {}
    let own ← perform a [] p.opening own
    let children ← follow below (a.inside own) p.slots
    let own ← perform a children p.closing own
    let later ← follow rest (a.past own) slots.tail
    return own :: later

/-- The evaluation comes to what was computed without the pool of a failure. -/
def Evaluation.Yields {β : Type} (y : Evaluation β) (pool : Pool)
    (x : Except Complaint (β × Pool)) : Prop :=
  match x with
  | .ok (b, pool') => y.on pool = (.ok b, pool')
  | .error complaint => ∃ pool', y.on pool = (.error complaint.failure, pool')

theorem Evaluation.Yields.bind {β γ : Type} {x : Except Complaint (β × Pool)} {y : Evaluation β}
    {pool : Pool} {f : β × Pool → Except Complaint (γ × Pool)} {f' : β → Evaluation γ}
    (h : y.Yields pool x) (h' : ∀ b pool, Evaluation.Yields (f' b) pool (f (b, pool))) :
    Evaluation.Yields (y >>= f') pool (x >>= f) := by
  rcases x with c | ⟨b, pool₁⟩
  · obtain ⟨pool', hy⟩ := h
    exact ⟨pool', by rw [on_bind, hy]⟩
  · have hstep : Evaluation.on (y >>= f') pool = (f' b).on pool₁ := by rw [on_bind, h]
    show Evaluation.Yields (y >>= f') pool (f (b, pool₁))
    unfold Evaluation.Yields
    rw [hstep]
    exact h' b pool₁

theorem on_perform (a : Around) (children : List Attributes) (action : Option Action)
    (own : Attributes) (pool : Pool) :
    (perform a children action own).on pool =
      match act a children action (own, pool) with
      | .ok (own, pool) => (.ok own, pool)
      | .error complaint => (.error complaint.failure, pool) := rfl

theorem perform_yields (a : Around) (children : List Attributes) (action : Option Action)
    (own : Attributes) (pool : Pool) :
    (perform a children action own).Yields pool (act a children action (own, pool)) := by
  unfold Evaluation.Yields
  rw [on_perform]
  rcases act a children action (own, pool) with _ | ⟨_, _⟩
  · exact ⟨pool, rfl⟩
  · rfl

/-- On a forest `follow` comes to what `eval` does. -/
theorem follow_yields (F : Forest Action) (a : Around) (slots : List (Option Action))
    (pool : Pool) : (follow (.ofForest F) a slots).Yields pool (eval F a slots pool) := by
  induction F generalizing a slots pool with
  | nil => rfl
  | leaf i token rest ih =>
    rw [Course.ofForest, follow, eval]
    refine (perform_yields ..).bind fun own pool₁ => ?_
    exact (ih ..).bind fun later pool₂ => rfl
  | node p below rest ihb ihr =>
    rw [Course.ofForest, follow, eval]
    refine (perform_yields ..).bind fun own₁ pool₁ => ?_
    refine (perform_yields ..).bind fun own₂ pool₂ => ?_
    refine (ihb ..).bind fun children pool₃ => ?_
    refine (perform_yields ..).bind fun own₃ pool₄ => ?_
    exact (ihr ..).bind fun later pool₅ => rfl

/-! ## Places in a tree -/

/-- `a` is what lies around the `n` nodes from `id` on, which are as they were attached: `ids` are
the siblings before them and `up` is the parent. -/
structure Placed (a : Around) (t : Tree) (up : Option Nat) (ids : List Nat) (id n : Nat) :
    Prop where
  linked : t.Linked
  fresh : ∀ j < n, ∃ s,
    t.node? (id + j) = some { sign := s, parent := up, position := ids.length + j }
  siblings : ∀ parent, up = some parent →
    parent < id ∧ t.children parent = ids ++ List.range' id n
  old : ∀ i ∈ ids, i < id
  before : a.before = ids.reverse.map t.attrs
  parent : a.parent? = up.map t.attrs
  function : a.function? = up.bind (enclosingFunction t)

/-- Since `t` only nodes were added and what is at or below the node `id` was changed. -/
structure Touched (t t' : Tree) (id : Nat) : Prop where
  size_le : t.size ≤ t'.size
  linked : t'.Linked
  others : ∀ i < t.size, i ≠ id → t'.node? i = t.node? i
  parent : t'.parent? id = t.parent? id
  position : (t'.node? id).map Node.position = (t.node? id).map Node.position

theorem Touched.refl {t : Tree} (ht : t.Linked) (id : Nat) : Touched t t id :=
  ⟨Nat.le_refl _, ht, fun _ _ _ => rfl, rfl, rfl⟩

theorem Touched.trans {t t' t'' : Tree} {id : Nat} (h : Touched t t' id) (h' : Touched t' t'' id) :
    Touched t t'' id :=
  ⟨h.size_le.trans h'.size_le, h'.linked,
    fun i hi hne => (h'.others i (hi.trans_le h.size_le) hne).trans (h.others i hi hne),
    h'.parent.trans h.parent, h'.position.trans h.position⟩

theorem touched_setAttrs {t : Tree} (ht : t.Linked) (id : Nat) (attrs : Attributes) :
    Touched t (t.setAttrs id attrs) id := by
  refine ⟨by simp, ht.setAttrs id attrs, fun i _ hne => ?_, t.parent?_setAttrs id attrs id, ?_⟩
  · rw [Tree.node?_setAttrs]
    simp [hne]
  · rw [Tree.node?_setAttrs, Option.map_map]
    congr 1
    funext n
    simp

theorem touched_attachAll {t : Tree} (ht : t.Linked) {id : Nat} (hid : id < t.size)
    (u : List Sign) : Touched t (t.attachAll id u) id := by
  refine ⟨by simp, ht.attachAll hid u, fun i hi hne => ?_, ?_, ?_⟩
  · rw [Tree.node?_attachAll hid, if_pos hi]
    simp [hne]
  · rw [Tree.parent?_attachAll hid, if_pos hid]
  · rw [Tree.node?_attachAll hid, if_pos hid, Option.map_map]
    congr 1
    funext n
    simp

/-! ## Effects that do what was computed -/

/-- The effect does to a tree and a pool what `x` computes, and leaves a tree as `post` says. -/
def Mirrors {β : Type} (x : Evaluation β) (e : Effect) (t : Tree) (pool : Pool)
    (post : β → Tree → Prop) : Prop :=
  match x.on pool with
  | (.error f, pool') => ∃ t', e ⟨t, pool⟩ = (.error f, ⟨t', pool'⟩)
  | (.ok b, pool') => ∃ t', e ⟨t, pool⟩ = (.ok (), ⟨t', pool'⟩) ∧ post b t'

section Mirrors

variable {β γ : Type} {x : Evaluation β} {e e' : Effect} {t t' : Tree} {pool : Pool}
  {post : β → Tree → Prop} {post' : γ → Tree → Prop}

theorem Mirrors.bind {f : β → Evaluation γ} (h : Mirrors x e t pool post)
    (h' : ∀ b pool' t', post b t' → Mirrors (f b) e' t' pool' post') :
    Mirrors (x >>= f) (e.andThen e') t pool post' := by
  unfold Mirrors at h ⊢
  rw [Evaluation.on_bind]
  revert h
  rcases x.on pool with ⟨failure | b, pool₁⟩
  · rintro ⟨t₁, he⟩
    exact ⟨t₁, Effect.andThen_of_error he⟩
  · rintro ⟨t₁, he, hb⟩
    rw [Effect.andThen_of_ok he]
    exact h' b pool₁ t₁ hb

theorem Mirrors.map (h : Mirrors x e t pool post) (f : β → γ)
    (hpost : ∀ b t', post b t' → post' (f b) t') :
    Mirrors (x >>= fun b => return f b) e t pool post' := by
  unfold Mirrors at h ⊢
  rw [Evaluation.on_bind]
  revert h
  rcases x.on pool with ⟨failure | b, pool₁⟩
  · exact id
  · rintro ⟨t₁, he, hb⟩
    exact ⟨t₁, he, hpost b t₁ hb⟩

theorem Mirrors.after (he : e ⟨t, pool⟩ = (.ok (), ⟨t', pool⟩)) (h : Mirrors x e' t' pool post) :
    Mirrors x (e.andThen e') t pool post := by
  unfold Mirrors
  rw [Effect.andThen_of_ok he]
  exact h

end Mirrors

section Placed

variable {a : Around} {t t' : Tree} {up : Option Nat} {ids : List Nat} {id n : Nat} {pool : Pool}

theorem Placed.lt_size (h : Placed a t up ids id (n + 1)) : id < t.size := by
  obtain ⟨s, hs⟩ := h.fresh 0 (Nat.succ_pos n)
  exact Tree.lt_size_of_node? hs

theorem Placed.attrs_eq (h : Placed a t up ids id (n + 1)) : t.attrs id = {} := by
  obtain ⟨s, hs⟩ := h.fresh 0 (Nat.succ_pos n)
  exact Tree.attrs_eq hs

theorem Placed.children_eq (h : Placed a t up ids id (n + 1)) : t.children id = [] := by
  obtain ⟨s, hs⟩ := h.fresh 0 (Nat.succ_pos n)
  exact Tree.children_eq hs

theorem Placed.below (h : Placed a t up ids id (n + 1)) (ht : Touched t t' id) {i : Nat}
    (hi : i < id) : t'.node? i = t.node? i :=
  ht.others i (hi.trans h.lt_size) (Nat.ne_of_lt hi)

theorem Placed.map_attrs (h : Placed a t up ids id (n + 1)) (ht : Touched t t' id) :
    up.map t'.attrs = a.parent? := by
  rw [h.parent]
  cases up with
  | none => rfl
  | some parent => exact congrArg some (Tree.attrs_congr (h.below ht (h.siblings parent rfl).1))

theorem Placed.bind_enclosingFunction (h : Placed a t up ids id (n + 1)) (ht : Touched t t' id) :
    up.bind (enclosingFunction t') = a.function? := by
  rw [h.function]
  cases up with
  | none => rfl
  | some parent =>
    have hlt := (h.siblings parent rfl).1
    exact enclosingFunction_congr h.linked (hlt.trans h.lt_size)
      ((hlt.trans h.lt_size).trans_le ht.size_le) fun i hi => h.below ht (hi.trans_lt hlt)

theorem Placed.sibling_eq (h : Placed a t up ids id (n + 1)) (ht : Touched t t' id) (back : Nat) :
    (t'.sibling? id back).map t'.attrs =
      a.parent?.bind fun _ => (t'.attrs id :: a.before)[back]? := by
  obtain ⟨s, hs⟩ := h.fresh 0 (Nat.succ_pos n)
  obtain ⟨m, hm⟩ : ∃ m, t'.node? id = some m :=
    ⟨_, Array.getElem?_eq_getElem (h.lt_size.trans_le ht.size_le)⟩
  have hparent : m.parent = up :=
    (Tree.parent?_eq hm).symm.trans (ht.parent.trans (Tree.parent?_eq hs))
  have hposition : m.position = ids.length := by
    have hp := ht.position
    rw [hm, show t.node? id = _ from hs] at hp
    exact Option.some.inj hp
  have hbefore : a.before = ids.reverse.map t'.attrs := by
    rw [h.before]
    exact List.map_congr_left fun i hi =>
      (Tree.attrs_congr (h.below ht (h.old i (List.mem_reverse.mp hi)))).symm
  simp only [Tree.sibling?, hm, hparent, hposition, ← h.map_attrs ht, hbefore,
    Option.bind_eq_bind, Option.bind_some]
  cases up with
  | none => rfl
  | some parent =>
    obtain ⟨hlt, hchildren⟩ := h.siblings parent rfl
    rw [← Tree.children_congr (h.below ht hlt)] at hchildren
    simp only [Option.bind_some, Option.map_some, Tree.child?, hchildren, List.range'_succ]
    cases back with
    | zero => simp
    | succ back =>
      by_cases hb : back + 1 ≤ ids.length
      · have hindex : ids.length - (back + 1) < ids.length := by omega
        rw [if_pos hb, List.getElem?_append_left hindex, List.getElem?_cons_succ,
          List.getElem?_map, List.getElem?_reverse (by omega)]
        congr 2
        omega
      · rw [if_neg hb, List.getElem?_cons_succ, List.getElem?_eq_none (by simp; omega)]
        rfl

/-- While the first node is worked on, an action sees what `Around.site` says. -/
theorem Placed.site_eq (h : Placed a t up ids id (n + 1)) (ht : Touched t t' id) :
    Site.of ⟨t', pool⟩ id = a.site (t'.attrs id) ((t'.children id).map t'.attrs) pool := by
  obtain ⟨s, hs⟩ := h.fresh 0 (Nat.succ_pos n)
  have hparent : t'.parent? id = up := ht.parent.trans (Tree.parent?_eq hs)
  rw [Site.of, Around.site, enclosingFunction_eq ht.linked (h.lt_size.trans_le ht.size_le), hparent,
    h.map_attrs ht, h.bind_enclosingFunction ht]
  congr 1
  · funext i
    rw [Tree.child?, List.getElem?_map]
  · exact funext (h.sibling_eq ht)

/-- The next sibling, when the first node is finished. -/
theorem Placed.past (h : Placed a t up ids id (n + 1)) (ht : Touched t t' id) :
    Placed (a.past (t'.attrs id)) t' up (ids ++ [id]) (id + 1) n := by
  refine ⟨ht.linked, fun j hj => ?_, fun parent hp => ?_, ?_, ?_, (h.map_attrs ht).symm,
    (h.bind_enclosingFunction ht).symm⟩
  · obtain ⟨s, hs⟩ := h.fresh (j + 1) (Nat.succ_lt_succ hj)
    refine ⟨s, ?_⟩
    rw [Nat.add_assoc, Nat.add_comm 1 j, ht.others _ (Tree.lt_size_of_node? hs) (by omega), hs,
      List.length_append, List.length_singleton, Nat.add_assoc, Nat.add_comm 1 j]
  · obtain ⟨hlt, hchildren⟩ := h.siblings parent hp
    refine ⟨Nat.lt_succ_of_lt hlt, ?_⟩
    rw [Tree.children_congr (h.below ht hlt), hchildren, List.range'_succ, List.append_assoc]
    rfl
  · intro i hi
    rcases List.mem_append.mp hi with hi | hi
    · exact Nat.lt_succ_of_lt (h.old i hi)
    · exact (List.mem_singleton.mp hi) ▸ Nat.lt_succ_self id
  · rw [Around.past, List.reverse_append, List.reverse_singleton, List.singleton_append,
      List.map_cons, h.before]
    exact congrArg (List.cons (t'.attrs id)) (List.map_congr_left fun i hi =>
      (Tree.attrs_congr (h.below ht (h.old i (List.mem_reverse.mp hi)))).symm)

/-- The children, when they have just been attached to the first node. -/
theorem Placed.inside (h : Placed a t up ids id (n + 1)) (ht : Touched t t' id)
    (hchildren : t'.children id = []) (u : List Sign) :
    Placed (a.inside (t'.attrs id)) (t'.attachAll id u) (some id) [] t'.size u.length := by
  have hid : id < t'.size := h.lt_size.trans_le ht.size_le
  have htouched := ht.trans (touched_attachAll ht.linked hid u)
  have hattrs := Tree.attrs_attachAll hid hid u
  refine ⟨htouched.linked, fun j hj => ⟨u[j], ?_⟩, ?_, by simp, rfl, ?_, ?_⟩
  · rw [Tree.node?_attachAll hid, if_neg (by omega), Nat.add_sub_cancel_left,
      List.getElem?_eq_getElem hj, Option.map_some, hchildren]
  · rintro parent ⟨⟩
    refine ⟨hid, ?_⟩
    rw [Tree.children_attachAll hid, hchildren]
  · rw [Around.inside, Option.map_some, hattrs]
  · obtain ⟨s, hs⟩ := h.fresh 0 (Nat.succ_pos n)
    have hparent : (t'.attachAll id u).parent? id = up :=
      htouched.parent.trans (Tree.parent?_eq hs)
    rw [Around.inside, Option.bind_some, enclosingFunction_eq htouched.linked
      (h.lt_size.trans_le htouched.size_le), hparent, h.bind_enclosingFunction htouched, hattrs]

/-! ## Walks -/

/-- The attributes of a node were written. -/
structure Wrote (t t' : Tree) (id : Nat) (own : Attributes) : Prop where
  touched : Touched t t' id
  size : t'.size = t.size
  attrs : t'.attrs id = own
  children : t'.children id = t.children id

theorem wrote_setAttrs (ht : t.Linked) (hid : id < t.size) (own : Attributes) :
    Wrote t (t.setAttrs id own) id own := by
  obtain ⟨m, hm⟩ : ∃ m, t.node? id = some m := ⟨_, Array.getElem?_eq_getElem hid⟩
  have hnode := t.node?_setAttrs id own id
  rw [hm, Option.map_some, if_pos rfl] at hnode
  exact ⟨touched_setAttrs ht id own, by simp, Tree.attrs_eq hnode,
    (Tree.children_eq hnode).trans (Tree.children_eq hm).symm⟩

/-- An action at the first node does what `act` says. -/
theorem Placed.at_spec (h : Placed a t up ids id (n + 1)) (ht : Touched t t' id)
    (action : Option Action) (pool : Pool) :
    Mirrors (perform a ((t'.children id).map t'.attrs) action (t'.attrs id))
      (semantics.at action id) t' pool fun own t'' => Wrote t' t'' id own := by
  have hid : id < t'.size := h.lt_size.trans_le ht.size_le
  cases action with
  | none => exact ⟨t', rfl, .refl ht.linked id, rfl, rfl, rfl⟩
  | some action =>
    have heffect : semantics.at (some action) id ⟨t', pool⟩ = action.effect id ⟨t', pool⟩ := rfl
    unfold Mirrors
    rw [heffect, Action.effect_eq, on_perform, act, h.site_eq ht]
    cases action.judge (a.site (t'.attrs id) ((t'.children id).map t'.attrs) pool) with
    | error c => exact ⟨_, rfl⟩
    | ok change => exact ⟨_, rfl, wrote_setAttrs ht.linked hid change.attrs⟩

/-- What a walk over `n` nodes from `id` on leaves behind. -/
structure Walked (t t' : Tree) (id n : Nat) (as : List Attributes) : Prop where
  size_le : t.size ≤ t'.size
  linked : t'.Linked
  others : ∀ i < t.size, i < id ∨ id + n ≤ i → t'.node? i = t.node? i
  attrs : (List.range' id n).map t'.attrs = as

/-- After the first node, a walk goes over the others. -/
theorem Walked.cons (h : Placed a t up ids id (n + 1)) (ht : Touched t t' id) {t'' : Tree}
    {later : List Attributes} (hw : Walked t' t'' (id + 1) n later) :
    Walked t t'' id (n + 1) (t'.attrs id :: later) := by
  refine ⟨ht.size_le.trans hw.size_le, hw.linked, fun i hi hout => ?_, ?_⟩
  · rw [hw.others i (hi.trans_le ht.size_le) (by omega), ht.others i hi (by omega)]
  · have hid : id < t'.size := h.lt_size.trans_le ht.size_le
    rw [List.range'_succ, List.map_cons, hw.attrs,
      Tree.attrs_congr (hw.others id hid (.inl (Nat.lt_succ_self id)))]

/-- After the children of the first node, the node itself is as before. -/
theorem Walked.touched (h : Placed a t up ids id (n + 1)) (ht : Touched t t' id) {u : List Sign}
    {t'' : Tree} {as : List Attributes}
    (hw : Walked (t'.attachAll id u) t'' t'.size u.length as) :
    Touched t t'' id ∧ t''.node? id = (t'.attachAll id u).node? id := by
  have hid : id < t'.size := h.lt_size.trans_le ht.size_le
  have hbranch := touched_attachAll ht.linked hid u
  have hsame : ∀ i < t'.size, t''.node? i = (t'.attachAll id u).node? i :=
    fun i hi => hw.others i (hi.trans_le hbranch.size_le) (.inl hi)
  refine ⟨⟨?_, hw.linked, fun i hi hne => ?_, ?_, ?_⟩, hsame id hid⟩
  · exact (ht.size_le.trans hbranch.size_le).trans hw.size_le
  · rw [hsame i (hi.trans_le ht.size_le), (ht.trans hbranch).others i hi hne]
  · rw [Tree.parent?_congr (hsame id hid), (ht.trans hbranch).parent]
  · rw [hsame id hid, (ht.trans hbranch).position]

end Placed

/-- A walk writes the attributes that `follow` computes, and leaves its pool. -/
theorem walk_follow {g : Grammar Action} {T : Course Action} (hT : T.Grows g) {a : Around} {t : Tree}
    {up : Option Nat} {ids : List Nat} {id : Nat} (h : Placed a t up ids id T.roots.length)
    {slots : List (Option Action)} (hslots : slots.length = T.roots.length) (pool : Pool) :
    Mirrors (follow T a slots) (T.walk semantics id slots) t pool fun as t' =>
      Walked t t' id T.roots.length as := by
  induction T generalizing a t up ids id slots pool with
  | nil => exact ⟨t, rfl, Nat.le_refl _, h.linked, fun _ _ _ => rfl, rfl⟩
  | stop f signs =>
    rw [follow, Course.walk]
    cases slots with
    | nil => exact ⟨t, rfl⟩
    | cons slot slots =>
      obtain ⟨s, u, rfl⟩ := List.exists_cons_of_length_eq_add_one hslots.symm
      have hslot := h.at_spec (.refl h.linked id) slot pool
      rw [h.attrs_eq, h.children_eq, List.map_nil] at hslot
      exact hslot.bind fun own pool₁ t₁ _ => ⟨t₁, rfl⟩
  | leaf i token rest ih =>
    obtain ⟨slot, slots, rfl⟩ := List.exists_cons_of_length_eq_add_one hslots
    have hslot := h.at_spec (.refl h.linked id) slot pool
    rw [h.attrs_eq, h.children_eq, List.map_nil] at hslot
    rw [follow, Course.walk]
    refine hslot.bind fun own pool₁ t₁ hwrote => ?_
    have htake := wrote_setAttrs hwrote.touched.linked (hwrote.size ▸ h.lt_size)
      { own with lexical := some token.text, line := some token.line }
    have ht := hwrote.touched.trans htake.touched
    have hrest := ih hT.2 (h.past ht) (Nat.succ.inj hslots) pool₁
    rw [htake.attrs] at hrest
    have hstep : Effect.take token id ⟨t₁, pool₁⟩ = (.ok (), ⟨t₁.setAttrs id
        { own with lexical := some token.text, line := some token.line }, pool₁⟩) := by
      rw [Effect.take, hwrote.attrs]
    refine Mirrors.after hstep ?_
    exact hrest.map _ fun later t' hwalked => htake.attrs ▸ hwalked.cons h ht
  | node p below rest ihb ihr =>
    obtain ⟨⟨-, hpslots, hroots, hbelow⟩, hrest⟩ := hT
    obtain ⟨slot, slots, rfl⟩ := List.exists_cons_of_length_eq_add_one hslots
    rw [follow, Course.walk]
    have hslot := h.at_spec (.refl h.linked id) slot pool
    rw [h.attrs_eq, h.children_eq, List.map_nil] at hslot
    refine hslot.bind fun own₁ pool₁ t₁ hwrote₁ => ?_
    have ht₁ := hwrote₁.touched
    have hopening := h.at_spec ht₁ p.opening pool₁
    rw [hwrote₁.attrs, hwrote₁.children, h.children_eq, List.map_nil] at hopening
    refine hopening.bind fun own₂ pool₂ t₂ hwrote₂ => ?_
    have ht₂ := ht₁.trans hwrote₂.touched
    have hid₂ : id < t₂.size := h.lt_size.trans_le ht₂.size_le
    have hkids : t₂.children id = [] := by
      rw [hwrote₂.children, hwrote₁.children, h.children_eq]
    have hdown : Mirrors (follow below (a.inside own₂) p.slots)
        (below.walk semantics t₂.size p.slots) (t₂.attachAll id p.right) pool₂ fun as t' =>
          Walked (t₂.attachAll id p.right) t' t₂.size p.right.length as := by
      have hplaced := h.inside ht₂ hkids p.right
      rw [hwrote₂.attrs, ← hroots] at hplaced
      rw [← hroots] at hpslots ⊢
      exact ihb hbelow hplaced hpslots pool₂
    refine Mirrors.bind (e := Effect.branch id p.right _) hdown fun kids pool₃ t₃ hwalked₃ => ?_
    obtain ⟨ht₃, hnode₃⟩ := hwalked₃.touched h ht₂
    have hattrs₃ : t₃.attrs id = own₂ := by
      rw [Tree.attrs_congr hnode₃, Tree.attrs_attachAll hid₂ hid₂, hwrote₂.attrs]
    have hkids₃ : (t₃.children id).map t₃.attrs = kids := by
      rw [Tree.children_congr hnode₃, Tree.children_attachAll hid₂, hkids, List.nil_append,
        hwalked₃.attrs]
    have hclosing := h.at_spec ht₃ p.closing pool₃
    rw [hattrs₃, hkids₃] at hclosing
    refine hclosing.bind fun own₄ pool₄ t₄ hwrote₄ => ?_
    have ht₄ := ht₃.trans hwrote₄.touched
    have hlater := ihr hrest (h.past ht₄) (Nat.succ.inj hslots) pool₄
    rw [hwrote₄.attrs] at hlater
    exact hlater.map _ fun later t' hwalked => hwrote₄.attrs ▸ hwalked.cons h ht₄

/-- A walk over a forest comes to what `eval` does. -/
theorem walk_eval {g : Grammar Action} {F : Forest Action} (hF : F.Grows g)
    (hfitted : F.Everywhere fun p _ => p.slots.length = p.right.length) {a : Around} {t : Tree}
    {up : Option Nat} {ids : List Nat} {id : Nat} (h : Placed a t up ids id F.roots.length)
    (slots : List (Option Action)) (hslots : slots.length = F.roots.length) (pool : Pool) :
    match eval F a slots pool with
    | .ok (_, pool') => ∃ t', F.walk semantics id slots ⟨t, pool⟩ = (.ok (), ⟨t', pool'⟩)
    | .error c => ∃ w, F.walk semantics id slots ⟨t, pool⟩ = (.error c.failure, w) := by
  have hroots := Course.roots_ofForest F
  have hmirrors := walk_follow (Course.grows_ofForest.mpr ⟨hF, hfitted⟩) (hroots ▸ h)
    (hslots.trans (congrArg List.length hroots.symm)) pool
  have hyields := follow_yields F a slots pool
  rw [Course.walk_ofForest] at hmirrors
  unfold Mirrors at hmirrors
  revert hyields
  rcases eval F a slots pool with c | ⟨as, pool'⟩
  · rintro ⟨pool', hyields⟩
    rw [hyields] at hmirrors
    obtain ⟨t', hwalk⟩ := hmirrors
    exact ⟨_, hwalk⟩
  · intro hyields
    rw [hyields] at hmirrors
    obtain ⟨t', hwalk, -⟩ := hmirrors
    exact ⟨t', hwalk⟩

end PredictiveParsing.Cminus
