import PredictiveParsing.Proofs.Tree.Links
import PredictiveParsing.Tree.Text

/-!
# Tours of a tree

A tree that only grows is linked, and its nodes can be walked: up from a node the walk ends where
there is no parent (`Ascends`), and the loop over a stack of nodes (`Tours`) ends with the nodes in
pre-order (`Ordered`), each once.

* `ascends_ancestors`: the ancestors of a node are the whole way up;
* `Ordered.tours`: a stack whose children go on in reverse walks the pre-order of the recursion;
* `ordered_preorder`: the bounded loop is never cut short;
* `grown_consistent`: what all this says of a tree however it has grown.
-/

namespace PredictiveParsing.Tree

/-! ## Ways up -/

/-- The parents from a node on, up to one without a parent. -/
inductive Ascends (t : Tree) : Nat → List Nat → Prop
  | top {id : Nat} (h : t.parent? id = none) : Ascends t id []
  | up {id parent : Nat} {above : List Nat} (h : t.parent? id = some parent)
      (habove : Ascends t parent above) : Ascends t id (parent :: above)

theorem parent?_eq_some_iff {t : Tree} {id parent : Nat} :
    t.parent? id = some parent ↔ ∃ i, t.place? id = some (parent, i) := by
  rw [parent?, place?]
  cases t.node? id with
  | none => simp
  | some n => cases hn : n.parent <;> simp [hn]

theorem WellLinked.linked {t : Tree} (h : t.WellLinked) : t.Linked := by
  intro id parent hp
  obtain ⟨i, hplace⟩ := parent?_eq_some_iff.mp hp
  exact h.parent_lt parent i id hplace

theorem Linked.ascends_ancestorsUpTo {t : Tree} (h : t.Linked) {bound id : Nat} (hb : id ≤ bound) :
    t.Ascends id (t.ancestorsUpTo bound id) := by
  induction bound generalizing id with
  | zero =>
    refine .top (Option.eq_none_iff_forall_ne_some.mpr fun parent hp => ?_)
    exact absurd (h id parent hp) (by omega)
  | succ bound ih =>
    rw [ancestorsUpTo]
    split
    next hp => exact .top hp
    next parent hp =>
      have hlt := h id parent hp
      exact .up hp (ih (by omega))

theorem Linked.ascends_ancestors {t : Tree} (h : t.Linked) (id : Nat) :
    t.Ascends id (t.ancestors id) := by
  by_cases hid : id < t.size
  · exact h.ascends_ancestorsUpTo (Nat.le_of_lt hid)
  · have hp : t.parent? id = none := by
      rw [parent?, node?_eq_none (Nat.le_of_not_lt hid), Option.bind_none]
    rw [ancestors]
    cases t.size <;> simp only [ancestorsUpTo, hp] <;> exact .top hp

/-! ## Tours -/

/-- The nodes at and below `ids`, parents first, with their depths. -/
inductive Ordered (t : Tree) : Nat → List Nat → List (Nat × Nat) → Prop
  | nil {depth : Nat} : Ordered t depth [] []
  | cons {depth id : Nat} {ids : List Nat} {below after : List (Nat × Nat)}
      (hbelow : Ordered t (depth + 1) (t.children id) below) (hafter : Ordered t depth ids after) :
      Ordered t depth (id :: ids) ((id, depth) :: below ++ after)

/-- The stack with `ids` put on it, the last one first. -/
def pushAll (depth : Nat) (ids : List Nat) (stack : List (Nat × Nat)) : List (Nat × Nat) :=
  ids.reverse.foldl (fun stack id => (id, depth) :: stack) stack

/-- What the loop visits that takes a node off the stack and puts its children on it. -/
inductive Tours (t : Tree) : List (Nat × Nat) → List (Nat × Nat) → Prop
  | done : Tours t [] []
  | visit {id depth : Nat} {stack later : List (Nat × Nat)}
      (h : Tours t (pushAll (depth + 1) (t.children id) stack) later) :
      Tours t ((id, depth) :: stack) ((id, depth) :: later)

theorem pushAll_eq (depth : Nat) (ids : List Nat) (stack : List (Nat × Nat)) :
    pushAll depth ids stack = ids.map (·, depth) ++ stack := by
  rw [pushAll, List.foldl_reverse]
  induction ids with
  | nil => rfl
  | cons id ids ih => rw [List.foldr_cons, ih, List.map_cons, List.cons_append]

variable {t : Tree}

theorem Ordered.tours {depth : Nat} {ids : List Nat} {tour : List (Nat × Nat)}
    (h : t.Ordered depth ids tour) {stack later : List (Nat × Nat)} (hlater : t.Tours stack later) :
    t.Tours (ids.map (·, depth) ++ stack) (tour ++ later) := by
  induction h generalizing stack later with
  | nil => exact hlater
  | @cons depth id ids below after _ _ ihbelow ihafter =>
    have hrest := ihbelow (ihafter hlater)
    rw [← pushAll_eq] at hrest
    rw [List.cons_append, List.cons_append, List.append_assoc]
    exact .visit hrest

/-- A bound that is not below the number of nodes to visit does not show. -/
theorem Tours.visit_eq {stack tour : List (Nat × Nat)} (h : t.Tours stack tour) {bound : Nat}
    (hb : tour.length ≤ bound) (done : List (Nat × Nat)) :
    Tree.visit t bound stack done = done.reverse ++ tour := by
  induction h generalizing bound done with
  | done => cases bound <;> simp [Tree.visit]
  | @visit id depth stack later _ ih =>
    rw [List.length_cons] at hb
    obtain ⟨bound, rfl⟩ := Nat.exists_eq_add_of_lt (show 0 < bound by omega)
    have hrest := ih (show later.length ≤ 0 + bound by omega) ((id, depth) :: done)
    rw [pushAll_eq] at hrest
    rw [Tree.visit, hrest, List.reverse_cons, List.append_assoc, List.singleton_append]

theorem Ordered.of_each {depth : Nat} {ids : List Nat}
    (h : ∀ id ∈ ids, ∃ below, t.Ordered (depth + 1) (t.children id) below) :
    ∃ tour, t.Ordered depth ids tour := by
  induction ids with
  | nil => exact ⟨[], .nil⟩
  | cons id ids ih =>
    obtain ⟨below, hbelow⟩ := h id List.mem_cons_self
    obtain ⟨after, hafter⟩ := ih fun id hid => h id (List.mem_cons_of_mem _ hid)
    exact ⟨(id, depth) :: below ++ after, .cons hbelow hafter⟩

section WellLinked

variable (h : t.WellLinked)

include h

/-- The recursion over the children ends. -/
theorem WellLinked.exists_ordered {ids : List Nat} (hids : ∀ id ∈ ids, id < t.size) (depth : Nat) :
    ∃ tour, t.Ordered depth ids tour := by
  have hall : ∀ id < t.size, ∀ depth, ∃ below, t.Ordered depth (t.children id) below :=
    h.induction_up fun id _ ih depth => Ordered.of_each fun c hc => ih c hc (depth + 1)
  exact Ordered.of_each fun id hid => hall id (hids id hid) (depth + 1)

theorem Ordered.map_fst {depth : Nat} {ids : List Nat} {tour : List (Nat × Nat)}
    (ho : t.Ordered depth ids tour) (hids : ∀ id ∈ ids, id < t.size) :
    tour.map Prod.fst = ids.flatMap t.subtree := by
  induction ho with
  | nil => rfl
  | @cons depth id ids below after _ _ ihbelow ihafter =>
    have hid := hids id List.mem_cons_self
    rw [List.flatMap_cons, subtree_eq h hid, List.cons_append, List.map_cons, List.map_append,
      ihbelow fun c hc => (h.lt_child hc).2, ihafter fun c hc => hids c (List.mem_cons_of_mem _ hc),
      List.cons_append]

theorem WellLinked.ordered_preorder (hroot : root < t.size) :
    t.Ordered 0 [root] t.preorder ∧ t.Tours [(root, 0)] t.preorder := by
  obtain ⟨tour, ho⟩ := h.exists_ordered (List.forall_mem_singleton.mpr hroot) 0
  have htours : t.Tours [(root, 0)] tour := by simpa using ho.tours .done
  have hlength : tour.length ≤ t.size := by
    have hmap := Ordered.map_fst h ho (List.forall_mem_singleton.mpr hroot)
    rw [← List.length_map Prod.fst, hmap, List.flatMap_singleton]
    exact length_subtree_le h hroot
  have htour : t.preorder = tour := htours.visit_eq hlength []
  exact htour ▸ ⟨ho, htours⟩

theorem map_preorder (hroot : root < t.size) : t.preorder.map Prod.fst = t.subtree root := by
  rw [Ordered.map_fst h (h.ordered_preorder hroot).1 (List.forall_mem_singleton.mpr hroot),
    List.flatMap_singleton]

end WellLinked

/-! ## Trees that have grown -/

/-- What becomes of a new tree by making nodes, apart from it or under nodes that are there, and by
writing attributes. -/
inductive Grown : Tree → Prop
  | ofRoot (s : Sign) : Grown (ofRoot s)
  | alloc {t : Tree} (h : Grown t) (s : Sign) : Grown (t.alloc s)
  | attach {t : Tree} (h : Grown t) {parent : Nat} (hparent : parent < t.size) (s : Sign) :
      Grown (t.attach parent s)
  | setAttrs {t : Tree} (h : Grown t) (id : Nat) (attrs : Attributes) : Grown (t.setAttrs id attrs)

theorem Grown.wellLinked (h : t.Grown) : t.WellLinked := by
  induction h with
  | ofRoot s => exact wellLinked_ofRoot s
  | alloc _ s ih => exact ih.alloc s
  | attach _ hparent s ih => exact ih.attach hparent s
  | setAttrs _ id attrs ih => exact ih.of_bare (bare_setAttrs _ id attrs)

theorem Grown.root_lt (h : t.Grown) : root < t.size := by
  induction h with
  | ofRoot s => exact Nat.zero_lt_one
  | alloc _ s ih => exact (size_alloc _ s).symm ▸ Nat.lt_succ_of_lt ih
  | attach _ _ s ih => exact (size_attach _ _ s).symm ▸ Nat.lt_succ_of_lt ih
  | setAttrs _ id attrs ih => exact (size_setAttrs _ id attrs).symm ▸ ih

/-- A new child has a larger number than all nodes before. -/
theorem Grown.pairwise_children (h : t.Grown) (id : Nat) : (t.children id).Pairwise (· < ·) := by
  induction h with
  | ofRoot s => cases id <;> exact .nil
  | alloc _ s ih => rwa [children_alloc]
  | @attach t h parent hparent s ih =>
    by_cases hid : id = parent
    · subst hid
      rw [children_attach hparent]
      refine List.pairwise_append.mpr ⟨ih, List.pairwise_singleton _ _, fun c hc c' hc' => ?_⟩
      rw [List.mem_singleton.mp hc']
      exact (h.wellLinked.lt_child hc).2
    · rwa [children_attach_of_ne hid]
  | setAttrs _ id' attrs ih => rwa [children_eq_of_bare (bare_setAttrs _ id' attrs)]

/-- The node of that number, for one that is there. -/
def nodeAt (t : Tree) (id : Nat) : Node := (t.node? id).getD default

theorem node?_eq_nodeAt {id : Nat} (hid : id < t.size) : t.node? id = some (t.nodeAt id) := by
  have hnode : t.node? id = some t.nodes[id] := Array.getElem?_eq_getElem hid
  rw [nodeAt, hnode, Option.getD_some]

theorem sibling?_eq {c parent i : Nat} (hplace : t.place? c = some (parent, i)) (back : Nat) :
    t.sibling? c back = if back ≤ i then t.child? parent (i - back) else none := by
  obtain ⟨n, hn, hp⟩ := Option.bind_eq_some_iff.mp hplace
  obtain ⟨parent', hparent, he⟩ := Option.map_eq_some_iff.mp hp
  cases he
  simp [sibling?, hn, hparent]

theorem sibling?_eq_none {c : Nat} (hplace : t.place? c = none) (back : Nat) :
    t.sibling? c back = none := by
  cases hn : t.node? c with
  | none => simp [sibling?, hn]
  | some n =>
    have hparent : n.parent = none := by simpa [place?, hn] using hplace
    simp [sibling?, hn, hparent]

/-! ## Listings -/

/-- What the loop from the root visits is the pre-order of the recursion, and it has the nodes that
can be reached from the root, each once. -/
structure IsTour (t : Tree) (tour : List (Nat × Nat)) : Prop where
  tours : t.Tours [(root, 0)] tour
  ordered : t.Ordered 0 [root] tour
  nodup : (tour.map Prod.fst).Nodup
  mem_iff : ∀ id, id ∈ tour.map Prod.fst ↔ ∃ way, t.Descends root way id
  node?_eq : ∀ x ∈ tour, t.node? x.1 = some (t.nodeAt x.1)

theorem WellLinked.isTour_preorder (h : t.WellLinked) (hroot : root < t.size) :
    t.IsTour t.preorder := by
  have hmap := map_preorder h hroot
  obtain ⟨hordered, htours⟩ := h.ordered_preorder hroot
  refine ⟨htours, hordered, hmap ▸ nodup_subtree h root hroot,
    fun id => hmap ▸ mem_subtree_iff h hroot, fun x hx => node?_eq_nodeAt ?_⟩
  have hmem : x.1 ∈ t.subtree root := hmap ▸ List.mem_map_of_mem hx
  exact lt_size_of_mem_subtree h hroot hmem

section IsTour

variable (h : t.IsTour t.preorder)

include h

theorem IsTour.leaves_eq : t.leaves =
    (t.preorder.map Prod.fst).filter fun id => (t.nodeAt id).sign.isTerminal := by
  refine List.filter_congr fun id hid => ?_
  obtain ⟨x, hx, rfl⟩ := List.mem_map.mp hid
  rw [h.node?_eq x hx, Option.any_some]

variable {α : Type}

theorem IsTour.render_eq (g : Grammar α) : t.render g =
    String.join (t.preorder.map fun x => nodeLine g (t.nodeAt x.1) x.2 ++ "\n") := by
  rw [render, String.join, List.foldl_map]
  refine List.foldl_ext _ _ "" fun text x hx => ?_
  simp only [h.node?_eq x hx, String.append_assoc]

theorem IsTour.toJson_eq (g : Grammar α) : t.toJson g = .object
    [("nodes", .array (t.preorder.map fun x => nodeJson g x.1 (t.nodeAt x.1))),
      ("root", .nat root)] := by
  have hnodes : t.preorder.filterMap (fun x => (t.node? x.1).map (nodeJson g x.1)) =
      t.preorder.map fun x => nodeJson g x.1 (t.nodeAt x.1) := by
    rw [← List.filterMap_eq_map]
    refine List.filterMap_congr fun x hx => ?_
    rw [h.node?_eq x hx]
    rfl
  rw [toJson, ← hnodes]

end IsTour

/-! ## Results -/

/-- However a tree has grown, its links agree, every way up ends, and all listings go through the
nodes below the root in pre-order. -/
theorem grown_consistent {α : Type} (h : t.Grown) :
    t.WellLinked ∧ (∀ id, (t.children id).Pairwise (· < ·)) ∧
      (∀ c parent i, t.place? c = some (parent, i) →
        (∀ back ≤ i, ∃ s, t.sibling? c back = some s ∧ t.child? parent (i - back) = some s) ∧
        ∀ back, i < back → t.sibling? c back = none) ∧
      (∀ c, t.place? c = none → ∀ back, t.sibling? c back = none) ∧
      (∀ c, t.Ascends c (t.ancestors c)) ∧ t.IsTour t.preorder ∧
      t.leaves = (t.preorder.map Prod.fst).filter (fun id => (t.nodeAt id).sign.isTerminal) ∧
      ∀ g : Grammar α,
        t.render g =
          String.join (t.preorder.map fun x => nodeLine g (t.nodeAt x.1) x.2 ++ "\n") ∧
        t.toJson g = .object
          [("nodes", .array (t.preorder.map fun x => nodeJson g x.1 (t.nodeAt x.1))),
            ("root", .nat root)] := by
  have hlinked := h.wellLinked
  have htour := hlinked.isTour_preorder h.root_lt
  refine ⟨hlinked, h.pairwise_children,
    fun c parent i hplace => ⟨fun back hb => ?_, fun back hb => ?_⟩, fun c => sibling?_eq_none,
    hlinked.linked.ascends_ancestors, htour, htour.leaves_eq,
    fun g => ⟨htour.render_eq g, htour.toJson_eq g⟩⟩
  · have hchild := (hlinked.child?_eq_some_iff parent i c).mpr hplace
    have hlt : i - back < (t.children parent).length :=
      Nat.lt_of_le_of_lt (Nat.sub_le i back) (List.getElem?_eq_some_iff.mp hchild).1
    have hs : t.child? parent (i - back) = some (t.children parent)[i - back] :=
      List.getElem?_eq_getElem hlt
    exact ⟨_, by rw [sibling?_eq hplace, if_pos hb, hs], hs⟩
  · rw [sibling?_eq hplace, if_neg (Nat.not_le_of_lt hb)]

/-- A root with two children, of which the first one got a child last, and a node apart. -/
def branching : Tree :=
  ((((ofRoot (.nonTerminal 0)).attach 0 (.nonTerminal 1)).alloc .pound).attach 0
    (.terminal 0)).attach 1 (.terminal 1)

theorem grown_branching : branching.Grown :=
  .attach (.attach (.alloc (.attach (.ofRoot _) (by decide) _) _) (by decide) _) (by decide) _

theorem grown_consistent_branching : branching.Grown ∧
    branching.IsTour [(0, 0), (1, 1), (4, 2), (3, 1)] ∧ branching.leaves = [4, 3] ∧
    branching.Ascends 4 [1, 0] ∧ branching.sibling? 3 1 = some 1 := by
  obtain ⟨-, -, hsibling, -, hup, htour, hleaves, -⟩ := grown_consistent (α := Unit) grown_branching
  obtain ⟨s, hs, hchild⟩ := (hsibling 3 0 1 rfl).1 1 (Nat.le_refl 1)
  obtain rfl : 1 = s := Option.some.inj hchild
  exact ⟨grown_branching, htour, hleaves, hup 4, hs⟩

end PredictiveParsing.Tree
