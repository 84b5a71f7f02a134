import Mathlib.Data.List.Perm.Subperm
import Mathlib.Data.List.Nodup
import PredictiveParsing.Proofs.Tree.Shape

/-!
# Linked trees

In a linked tree the two records of a link agree: a node is the `i`-th child of its parent exactly
when the parent and `i` are its place, and parents have smaller numbers than their children. Trees
stay so while they grow.

* `WellLinked.descends_unique`: there is at most one way down from one node to another;
* `subtree_eq`, `nodup_subtree`: the nodes at and below a node, parents first, each once;
* `Rooted.existsUnique_descends`: when one node stands apart, every other one can be reached from
  the root in exactly one way.
-/

namespace PredictiveParsing.Tree

/-- The parent of a node and its position among the children there. -/
def place? (t : Tree) (id : Nat) : Option (Nat × Nat) :=
  (t.node? id).bind fun n => n.parent.map fun parent => (parent, n.position)

structure WellLinked (t : Tree) : Prop where
  child?_eq_some_iff : ∀ parent i c, t.child? parent i = some c ↔ t.place? c = some (parent, i)
  parent_lt : ∀ parent i c, t.place? c = some (parent, i) → parent < c

theorem lt_size_of_place? {t : Tree} {id : Nat} {place : Nat × Nat} (h : t.place? id = some place) :
    id < t.size := by
  obtain ⟨n, hn, -⟩ := Option.bind_eq_some_iff.mp h
  exact lt_size_of_node? hn

@[simp] theorem place?_bare (t : Tree) (id : Nat) : t.bare.place? id = t.place? id := by
  rw [place?, node?_bare, place?]
  cases t.node? id <;> rfl

theorem place?_eq_of_bare {t t' : Tree} (h : t'.bare = t.bare) (id : Nat) :
    t'.place? id = t.place? id := by
  rw [← place?_bare, h, place?_bare]

theorem WellLinked.of_bare {t t' : Tree} (h : t.WellLinked) (he : t'.bare = t.bare) :
    t'.WellLinked where
  child?_eq_some_iff parent i c := by
    rw [child?, children_eq_of_bare he, place?_eq_of_bare he]
    exact h.child?_eq_some_iff parent i c
  parent_lt parent i c hc := h.parent_lt parent i c (place?_eq_of_bare he c ▸ hc)

/-! ## Growth -/

theorem node?_eq_none {t : Tree} {id : Nat} (h : t.size ≤ id) : t.node? id = none :=
  Array.getElem?_eq_none_iff.mpr h

theorem children_eq_nil {t : Tree} {id : Nat} (h : t.size ≤ id) : t.children id = [] := by
  rw [children, node?_eq_none h, Option.elim_none]

theorem node?_alloc (t : Tree) (s : Sign) (id : Nat) :
    (t.alloc s).node? id = if id = t.size then some { sign := s } else t.node? id := by
  simp only [node?, alloc, size, Array.getElem?_push]
  rfl

theorem place?_alloc (t : Tree) (s : Sign) (id : Nat) : (t.alloc s).place? id = t.place? id := by
  rw [place?, node?_alloc, place?]
  split
  next h => rw [node?_eq_none (Nat.le_of_eq h.symm)]; rfl
  next => rfl

theorem children_alloc (t : Tree) (s : Sign) (id : Nat) :
    (t.alloc s).children id = t.children id := by
  rw [children, node?_alloc]
  split
  next h => rw [children_eq_nil (Nat.le_of_eq h.symm)]; rfl
  next => rfl

theorem place?_attach {t : Tree} (parent : Nat) (s : Sign) (id : Nat) :
    (t.attach parent s).place? id =
      if id = t.size then some (parent, (t.children parent).length) else t.place? id := by
  rw [place?, node?_attach, place?]
  split
  · rfl
  · cases t.node? id with
    | none => rfl
    | some n => by_cases h : id = parent <;> simp [h]

theorem place?_attachAll {t : Tree} (parent : Nat) (u : List Sign) {id : Nat}
    (hid : id < t.size) : (t.attachAll parent u).place? id = t.place? id := by
  induction u generalizing t with
  | nil => rfl
  | cons s u ih =>
    have hlt : id < (t.attach parent s).size := by
      rw [size_attach]
      exact Nat.lt_succ_of_lt hid
    refine (ih hlt).trans ?_
    rw [place?_attach, if_neg (Nat.ne_of_lt hid)]

theorem children_attach_of_ne {t : Tree} {parent id : Nat} (h : id ≠ parent) (s : Sign) :
    (t.attach parent s).children id = t.children id := by
  rw [children, node?_attach]
  by_cases hid : id = t.size
  · rw [if_pos hid, children_eq_nil (Nat.le_of_eq hid.symm)]
    rfl
  · rw [if_neg hid, children]
    cases t.node? id <;> simp [h]

theorem children_attachAll_of_ne {t : Tree} {parent id : Nat} (h : id ≠ parent)
    (signs : List Sign) : (t.attachAll parent signs).children id = t.children id := by
  induction signs generalizing t with
  | nil => rfl
  | cons s signs ih => exact ih.trans (children_attach_of_ne h s)

/-- The new children have the signs in their order. -/
theorem map_sign?_attachAll (t : Tree) (parent : Nat) (signs : List Sign) :
    (List.range' t.size signs.length).map (t.attachAll parent signs).sign? = signs.map some := by
  refine List.ext_getElem (by simp) fun i hi hi' => ?_
  have hlt : i < signs.length := by simpa using hi'
  have hge : ¬ t.size + i < t.size := by omega
  simp [sign?_attachAll, hlt, hge]

theorem wellLinked_ofRoot (s : Sign) : (ofRoot s).WellLinked := by
  have hchild : ∀ parent i, (ofRoot s).child? parent i = none := by
    rintro (_ | parent) i <;> rfl
  have hplace : ∀ id, (ofRoot s).place? id = none := by
    rintro (_ | id) <;> rfl
  exact ⟨by simp [hchild, hplace], by simp [hplace]⟩

theorem WellLinked.alloc {t : Tree} (h : t.WellLinked) (s : Sign) : (t.alloc s).WellLinked where
  child?_eq_some_iff parent i c := by
    rw [child?, children_alloc, place?_alloc]
    exact h.child?_eq_some_iff parent i c
  parent_lt parent i c hc := h.parent_lt parent i c (place?_alloc t s c ▸ hc)

theorem WellLinked.attach {t : Tree} (h : t.WellLinked) {parent : Nat} (hparent : parent < t.size)
    (s : Sign) : (t.attach parent s).WellLinked where
  child?_eq_some_iff id i c := by
    have hold := h.child?_eq_some_iff id i c
    have hnew : ∀ c, t.child? id i = some c → c < t.size := fun c hc =>
      lt_size_of_place? ((h.child?_eq_some_iff id i c).mp hc)
    rw [place?_attach, child?]
    by_cases hid : id = parent
    · subst hid
      rw [children_attach hparent, List.getElem?_append]
      split
      next hi =>
        have hne : some (id, (t.children id).length) ≠ some (id, i) := by
          simp [Nat.ne_of_gt hi]
        have hc : (t.children id)[i]? = some c → c ≠ t.size := fun hc => Nat.ne_of_lt (hnew c hc)
        by_cases hcs : c = t.size
        · rw [if_pos hcs]
          exact iff_of_false (fun hc' => hc hc' hcs) hne
        · rw [if_neg hcs]
          exact hold
      next hi =>
        have hnone : t.place? c ≠ some (id, i) := fun hp =>
          absurd (List.getElem?_eq_some_iff.mp (hold.mpr hp)).1 hi
        by_cases hcs : c = t.size
        · rw [if_pos hcs]
          have hsub : i - (t.children id).length = 0 ↔ (t.children id).length = i := by omega
          simp [List.getElem?_singleton, hcs, hsub]
        · rw [if_neg hcs]
          refine iff_of_false (fun hc => hcs ?_) hnone
          simpa using (List.mem_of_getElem? hc)
    · rw [children_attach_of_ne hid]
      by_cases hcs : c = t.size
      · rw [if_pos hcs]
        refine iff_of_false (fun hc => Nat.ne_of_lt (hnew c hc) hcs) ?_
        simp [Ne.symm hid]
      · rw [if_neg hcs]
        exact hold
  parent_lt id i c hc := by
    rw [place?_attach] at hc
    split at hc
    next hcs =>
      cases hc
      exact hcs ▸ hparent
    next => exact h.parent_lt id i c hc

theorem WellLinked.attachAll {t : Tree} (h : t.WellLinked) {parent : Nat}
    (hparent : parent < t.size) (signs : List Sign) : (t.attachAll parent signs).WellLinked := by
  induction signs generalizing t with
  | nil => exact h
  | cons s signs ih =>
    refine ih (h.attach hparent s) ?_
    rw [size_attach]
    exact Nat.lt_succ_of_lt hparent

theorem WellLinked.exists_place {t : Tree} (h : t.WellLinked) {id c : Nat}
    (hc : c ∈ t.children id) : ∃ i, t.child? id i = some c ∧ t.place? c = some (id, i) := by
  obtain ⟨i, hi⟩ := List.mem_iff_getElem?.mp hc
  exact ⟨i, hi, (h.child?_eq_some_iff id i c).mp hi⟩

theorem WellLinked.lt_child {t : Tree} (h : t.WellLinked) {id c : Nat} (hc : c ∈ t.children id) :
    id < c ∧ c < t.size := by
  obtain ⟨i, -, hplace⟩ := h.exists_place hc
  exact ⟨h.parent_lt id i c hplace, lt_size_of_place? hplace⟩

/-! ## Ways down -/

/-- The positions, the last first, on a way down from the node `top`. -/
inductive Descends (t : Tree) (top : Nat) : List Nat → Nat → Prop
  | here : Descends t top [] top
  | down {way : List Nat} {id i c : Nat} (h : Descends t top way id) (hc : t.child? id i = some c) :
      Descends t top (i :: way) c

section WellLinked

variable {t : Tree} (h : t.WellLinked)

theorem Descends.of_child {top c i : Nat} (hc : t.child? top i = some c) {way : List Nat} {id : Nat}
    (hd : t.Descends c way id) : t.Descends top (way ++ [i]) id := by
  induction hd with
  | here => exact .down .here hc
  | down _ hchild ih => exact .down ih hchild

include h

theorem Descends.le {top id : Nat} {way : List Nat} (hd : t.Descends top way id) : top ≤ id := by
  induction hd with
  | here => exact Nat.le_refl top
  | down _ hc ih => exact Nat.le_trans ih (Nat.le_of_lt (h.lt_child (List.mem_of_getElem? hc)).1)

theorem WellLinked.descends_unique {top id : Nat} {way way' : List Nat}
    (hd : t.Descends top way id) (hd' : t.Descends top way' id) : way = way' := by
  -- No way leads back to where it starts, and the last step of a way is the place of its end.
  have hback : ∀ {way : List Nat} {id i : Nat}, t.Descends top way id →
      t.child? id i ≠ some top := fun hd hc =>
    absurd (Descends.le h hd) (Nat.not_le_of_lt (h.lt_child (List.mem_of_getElem? hc)).1)
  induction hd generalizing way' with
  | here =>
    cases hd' with
    | here => rfl
    | down hd' hc => exact absurd hc (hback hd')
  | @down way id i c hd hc ih =>
    cases hd' with
    | here => exact absurd hc (hback hd)
    | @down way' id' i' _ hd' hc' =>
      have hplace := (h.child?_eq_some_iff id i c).mp hc
      rw [(h.child?_eq_some_iff id' i' c).mp hc'] at hplace
      cases hplace
      rw [ih hd']

/-! ## Nodes below a node -/

/-- What holds of a node because it holds of its children holds of every node. -/
theorem WellLinked.induction_up {P : Nat → Prop}
    (hP : ∀ id < t.size, (∀ c ∈ t.children id, P c) → P id) : ∀ id < t.size, P id := by
  have hdepth : ∀ n id, id < t.size → t.size - id ≤ n → P id := by
    intro n
    induction n with
    | zero => exact fun id hid hn => absurd hn (by omega)
    | succ n ih =>
      intro id hid hn
      refine hP id hid fun c hc => ?_
      obtain ⟨hlt, hsize⟩ := h.lt_child hc
      exact ih c hsize (by omega)
  exact fun id hid => hdepth _ id hid (Nat.le_refl _)

/-- A recursion over the children gives the same for every bound that reaches beyond all nodes. -/
theorem WellLinked.settled {β : Type} {f : Nat → Nat → β}
    (hf : ∀ b b' id, (∀ c ∈ t.children id, f b c = f b' c) → f (b + 1) id = f (b' + 1) id)
    {id : Nat} (hid : id < t.size) {b : Nat} (hb : t.size - id ≤ b) : f b id = f t.size id := by
  have hall : ∀ b b', t.size - id ≤ b → t.size - id ≤ b' → f b id = f b' id := by
    refine h.induction_up (P := fun id => ∀ b b', t.size - id ≤ b → t.size - id ≤ b' →
      f b id = f b' id) (fun id hid ih b b' hb hb' => ?_) id hid
    obtain ⟨b, rfl⟩ := Nat.exists_eq_add_of_lt (show 0 < b by omega)
    obtain ⟨b', rfl⟩ := Nat.exists_eq_add_of_lt (show 0 < b' by omega)
    refine hf _ _ id fun c hc => ?_
    have hlt := h.lt_child hc
    exact ih c hc _ _ (by omega) (by omega)
  exact hall b t.size hb (Nat.sub_le _ _)

end WellLinked

/-- The nodes at and below a node, parents first, on at most `bound` levels. -/
def subtreeUpTo (t : Tree) : Nat → Nat → List Nat
  | 0, _ => []
  | bound + 1, id => id :: (t.children id).flatMap (t.subtreeUpTo bound)

/-- The nodes at and below a node, parents first. -/
def subtree (t : Tree) (id : Nat) : List Nat := t.subtreeUpTo t.size id

section WellLinked

variable {t : Tree} (h : t.WellLinked)

include h

theorem subtree_eq {id : Nat} (hid : id < t.size) :
    t.subtree id = id :: (t.children id).flatMap t.subtree := by
  have hbound := h.settled (f := t.subtreeUpTo)
    (fun b b' id hc => congrArg (List.cons id) (List.flatMap_congr hc)) hid
    (b := t.size + 1) (by omega)
  exact hbound.symm

/-- The subtree of a node has with a node all its children. -/
theorem children_subset_subtree {id x : Nat} (hid : id < t.size) (hx : x ∈ t.subtree id) :
    t.children x ⊆ t.subtree id := by
  refine h.induction_up (P := fun id => x ∈ t.subtree id → t.children x ⊆ t.subtree id)
    (fun id hid ih hx y hy => ?_) id hid hx
  rw [subtree_eq h hid] at hx ⊢
  refine List.mem_cons_of_mem id (List.mem_flatMap.mpr ?_)
  rcases List.mem_cons.mp hx with rfl | hx
  · exact ⟨y, hy, by rw [subtree_eq h (h.lt_child hy).2]; exact List.mem_cons_self⟩
  · obtain ⟨child, hchild, hx⟩ := List.mem_flatMap.mp hx
    exact ⟨child, hchild, ih child hchild hx hy⟩

theorem mem_subtree_iff {id c : Nat} (hid : id < t.size) :
    c ∈ t.subtree id ↔ ∃ way, t.Descends id way c := by
  constructor
  · intro hc
    refine h.induction_up (P := fun id => c ∈ t.subtree id → ∃ way, t.Descends id way c)
      (fun id hid ih hc => ?_) id hid hc
    rw [subtree_eq h hid] at hc
    rcases List.mem_cons.mp hc with rfl | hc
    · exact ⟨[], .here⟩
    · obtain ⟨child, hchild, hc⟩ := List.mem_flatMap.mp hc
      obtain ⟨way, hway⟩ := ih child hchild hc
      obtain ⟨i, hi, -⟩ := h.exists_place hchild
      exact ⟨way ++ [i], hway.of_child hi⟩
  · rintro ⟨way, hway⟩
    induction hway with
    | here =>
      rw [subtree_eq h hid]
      exact List.mem_cons_self
    | down _ hc ih => exact children_subset_subtree h hid ih (List.mem_of_getElem? hc)

theorem lt_size_of_mem_subtree {id c : Nat} (hid : id < t.size) (hc : c ∈ t.subtree id) :
    c < t.size := by
  obtain ⟨way, hway⟩ := (mem_subtree_iff h hid).mp hc
  cases hway with
  | here => exact hid
  | down _ hc => exact (h.lt_child (List.mem_of_getElem? hc)).2

theorem nodup_subtree : ∀ id < t.size, (t.subtree id).Nodup := by
  refine h.induction_up fun id hid ih => ?_
  rw [subtree_eq h hid]
  refine List.nodup_cons.mpr ⟨fun hmem => ?_, List.nodup_flatMap.mpr ⟨ih, ?_⟩⟩
  · obtain ⟨child, hchild, hid'⟩ := List.mem_flatMap.mp hmem
    obtain ⟨hlt, hsize⟩ := h.lt_child hchild
    obtain ⟨way, hway⟩ := (mem_subtree_iff h hsize).mp hid'
    exact absurd (Descends.le h hway) (Nat.not_le_of_lt hlt)
  · rw [List.pairwise_iff_getElem]
    intro i j hi hj hij x hx hx'
    have hway : ∀ k (hk : k < (t.children id).length), x ∈ t.subtree (t.children id)[k] →
        ∃ way, t.Descends id (way ++ [k]) x := by
      intro k hk hx
      obtain ⟨way, hway⟩ := (mem_subtree_iff h (h.lt_child (List.getElem_mem hk)).2).mp hx
      exact ⟨way, hway.of_child (List.getElem?_eq_getElem hk)⟩
    obtain ⟨way, hway₁⟩ := hway i hi hx
    obtain ⟨way', hway₂⟩ := hway j hj hx'
    have hlast := (List.append_inj' (h.descends_unique hway₁ hway₂) rfl).2
    exact absurd (List.cons.inj hlast).1 (Nat.ne_of_lt hij)

theorem length_subtree_le {id : Nat} (hid : id < t.size) : (t.subtree id).length ≤ t.size := by
  have hsubset : t.subtree id ⊆ List.range t.size := fun c hc =>
    List.mem_range.mpr (lt_size_of_mem_subtree h hid hc)
  have hle := ((nodup_subtree h id hid).subperm hsubset).length_le
  rwa [List.length_range] at hle

end WellLinked

/-! ## A root, and a node apart -/

/-- The tree hangs under its root but for one node, which stands apart. -/
structure Rooted (t : Tree) (apart : Nat) : Prop extends t.WellLinked where
  apart_lt : apart < t.size
  apart_ne : apart ≠ root
  apart_place : t.place? apart = none
  apart_childless : t.children apart = []
  orphan : ∀ id < t.size, t.place? id = none → id = root ∨ id = apart

section Rooted

variable {t : Tree} {apart : Nat}

theorem Rooted.root_lt (h : t.Rooted apart) : root < t.size :=
  Nat.zero_lt_of_lt h.apart_lt

theorem Rooted.of_bare {t' : Tree} (h : t.Rooted apart) (he : t'.bare = t.bare) :
    t'.Rooted apart where
  toWellLinked := h.toWellLinked.of_bare he
  apart_lt := size_eq_of_bare he ▸ h.apart_lt
  apart_ne := h.apart_ne
  apart_place := (place?_eq_of_bare he apart).trans h.apart_place
  apart_childless := (children_eq_of_bare he apart).trans h.apart_childless
  orphan id hid hplace := h.orphan id (size_eq_of_bare he ▸ hid) (place?_eq_of_bare he id ▸ hplace)

theorem Rooted.attach (h : t.Rooted apart) {parent : Nat} (hparent : parent < t.size)
    (hne : parent ≠ apart) (s : Sign) : (t.attach parent s).Rooted apart where
  toWellLinked := h.toWellLinked.attach hparent s
  apart_lt := by
    rw [size_attach]
    exact Nat.lt_succ_of_lt h.apart_lt
  apart_ne := h.apart_ne
  apart_place := by rw [place?_attach, if_neg (Nat.ne_of_lt h.apart_lt), h.apart_place]
  apart_childless := by rw [children_attach_of_ne hne.symm, h.apart_childless]
  orphan id hid hplace := by
    rw [place?_attach] at hplace
    split at hplace
    next => cases hplace
    next hne =>
      rw [size_attach] at hid
      exact h.orphan id (by omega) hplace

theorem Rooted.attachAll (h : t.Rooted apart) {parent : Nat} (hparent : parent < t.size)
    (hne : parent ≠ apart) (signs : List Sign) : (t.attachAll parent signs).Rooted apart := by
  induction signs generalizing t with
  | nil => exact h
  | cons s signs ih =>
    refine ih (h.attach hparent hne s) ?_
    rw [size_attach]
    exact Nat.lt_succ_of_lt hparent

theorem Rooted.not_descends_apart (h : t.Rooted apart) {way : List Nat} :
    ¬ t.Descends root way apart := by
  intro hd
  cases hd with
  | here => exact h.apart_ne rfl
  | down _ hc =>
    have hplace := (h.child?_eq_some_iff _ _ _).mp hc
    rw [h.apart_place] at hplace
    cases hplace

/-- Every node but the one apart is reached from the root in one way. -/
theorem Rooted.existsUnique_descends (h : t.Rooted apart) {id : Nat} (hid : id < t.size)
    (hne : id ≠ apart) : ∃! way, t.Descends root way id := by
  suffices hway : ∃ way, t.Descends root way id by
    obtain ⟨way, hway⟩ := hway
    exact ⟨way, hway, fun way' hway' => h.descends_unique hway' hway⟩
  induction id using Nat.strongRecOn with
  | ind id ih =>
    cases hplace : t.place? id with
    | none =>
      obtain rfl : id = root := (h.orphan id hid hplace).resolve_right hne
      exact ⟨[], .here⟩
    | some place =>
      obtain ⟨parent, i⟩ := place
      have hchild := (h.child?_eq_some_iff parent i id).mpr hplace
      have hlt := h.parent_lt parent i id hplace
      have hparent : parent ≠ apart := by
        rintro rfl
        rw [child?, h.apart_childless] at hchild
        cases hchild
      obtain ⟨way, hway⟩ := ih parent hlt (Nat.lt_trans hlt hid) hparent
      exact ⟨i :: way, .down hway hchild⟩

end Rooted

end PredictiveParsing.Tree
