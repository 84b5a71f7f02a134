import Mathlib.Data.List.Basic
import PredictiveParsing.Tree.Basic

/-!
# Nodes of a changing tree

What a node is after attributes were set or children were attached: `node?_setAttrs` and
`node?_attachAll`, and the same for the sign of a node alone. In a `Linked` tree parents have smaller
numbers than their children.
-/

namespace PredictiveParsing.Tree

theorem lt_size_of_node? {t : Tree} {id : Nat} {n : Node} (h : t.node? id = some n) :
    id < t.size := (Array.getElem?_eq_some_iff.mp h).1

theorem ext_node? {t t' : Tree} (h : ∀ id, t.node? id = t'.node? id) : t = t' := by
  have hnodes : t.nodes = t'.nodes := Array.ext_getElem? h
  rcases t with ⟨nodes⟩
  exact congrArg Tree.mk hnodes

theorem attrs_eq {t : Tree} {id : Nat} {n : Node} (h : t.node? id = some n) :
    t.attrs id = n.attrs := by
  rw [attrs, h, Option.elim_some]

theorem children_eq {t : Tree} {id : Nat} {n : Node} (h : t.node? id = some n) :
    t.children id = n.children := by
  rw [children, h, Option.elim_some]

theorem parent?_eq {t : Tree} {id : Nat} {n : Node} (h : t.node? id = some n) :
    t.parent? id = n.parent := by
  rw [parent?, h, Option.bind_some]

theorem attrs_congr {t t' : Tree} {id : Nat} (h : t'.node? id = t.node? id) :
    t'.attrs id = t.attrs id := by
  rw [attrs, h, attrs]

theorem children_congr {t t' : Tree} {id : Nat} (h : t'.node? id = t.node? id) :
    t'.children id = t.children id := by
  rw [children, h, children]

theorem parent?_congr {t t' : Tree} {id : Nat} (h : t'.node? id = t.node? id) :
    t'.parent? id = t.parent? id := by
  rw [parent?, h, parent?]

/-! ## Setting attributes -/

theorem node?_setAttrs (t : Tree) (id : Nat) (attrs : Attributes) (i : Nat) :
    (t.setAttrs id attrs).node? i =
      (t.node? i).map fun n => if i = id then { n with attrs } else n := by
  simp only [node?, setAttrs, Array.getElem?_modify]
  by_cases h : id = i
  · simp [h]
  · simp [h, Ne.symm h]

/-- Writing the attributes that are there changes nothing. -/
theorem setAttrs_attrs (t : Tree) (id : Nat) : t.setAttrs id (t.attrs id) = t := by
  refine ext_node? fun i => ?_
  rw [node?_setAttrs]
  cases hn : t.node? i with
  | none => rfl
  | some n =>
    by_cases hi : i = id
    · subst hi
      simp [attrs_eq hn]
    · simp [hi]

theorem attrs_setAttrs_of_ne {t : Tree} {id id' : Nat} (h : id' ≠ id) (attrs : Attributes) :
    (t.setAttrs id attrs).attrs id' = t.attrs id' := by
  refine attrs_congr ?_
  rw [node?_setAttrs]
  cases t.node? id' <;> simp [h]

/-! ## Attaching children -/

theorem node?_attach (t : Tree) (id : Nat) (s : Sign) (i : Nat) :
    (t.attach id s).node? i =
      if i = t.size then
        some { sign := s, parent := some id, position := (t.children id).length }
      else
        (t.node? i).map fun n =>
          if i = id then { n with children := n.children ++ [t.size] } else n := by
  have hsize : t.size = t.nodes.size := rfl
  simp only [node?, attach, Array.getElem?_push, Array.size_modify, hsize]
  by_cases h : i = t.nodes.size
  · rw [if_pos h, if_pos h]
  · rw [if_neg h, if_neg h, Array.getElem?_modify]
    by_cases hid : id = i
    · simp [hid]
    · simp [hid, Ne.symm hid]

theorem children_attach {t : Tree} {id : Nat} (hid : id < t.size) (s : Sign) :
    (t.attach id s).children id = t.children id ++ [t.size] := by
  obtain ⟨n, hn⟩ : ∃ n, t.node? id = some n := ⟨_, Array.getElem?_eq_getElem hid⟩
  have hnode := node?_attach t id s id
  rw [if_neg (Nat.ne_of_lt hid), hn, Option.map_some, if_pos rfl] at hnode
  rw [children_eq hnode, children_eq hn]

theorem node?_attachAll {t : Tree} {id : Nat} (hid : id < t.size) (u : List Sign) (i : Nat) :
    (t.attachAll id u).node? i =
      if i < t.size then
        (t.node? i).map fun n =>
          if i = id then { n with children := n.children ++ List.range' t.size u.length } else n
      else
        (u[i - t.size]?).map fun s =>
          { sign := s, parent := some id, position := (t.children id).length + (i - t.size) } := by
  induction u generalizing t with
  | nil =>
    by_cases hi : i < t.size
    · simp [attachAll, hi]
    · simp [attachAll, hi, node?, show t.nodes.size ≤ i from Nat.le_of_not_lt hi]
  | cons s u ih =>
    have hcons : t.attachAll id (s :: u) = (t.attach id s).attachAll id u := rfl
    have hid' : id < (t.attach id s).size := by
      rw [size_attach]
      exact Nat.lt_succ_of_lt hid
    rw [hcons, ih hid', node?_attach, size_attach, children_attach hid]
    rcases Nat.lt_trichotomy i t.size with hi | rfl | hi
    · rw [if_pos (Nat.lt_succ_of_lt hi), if_neg (Nat.ne_of_lt hi), if_pos hi, Option.map_map]
      congr 1
      funext n
      by_cases he : i = id
      · simp [he, List.range'_succ]
      · simp [he]
    · simp [Nat.ne_of_gt hid]
    · have hsub : i - t.size = i - (t.size + 1) + 1 := by omega
      rw [if_neg (by omega), if_neg (by omega), hsub, List.getElem?_cons_succ]
      simp only [List.length_append, List.length_singleton]
      congr 1
      funext s'
      congr 1
      omega

theorem children_attachAll {t : Tree} {id : Nat} (hid : id < t.size) (u : List Sign) :
    (t.attachAll id u).children id = t.children id ++ List.range' t.size u.length := by
  obtain ⟨n, hn⟩ : ∃ n, t.node? id = some n := ⟨_, Array.getElem?_eq_getElem hid⟩
  have hnode := node?_attachAll hid u id
  rw [if_pos hid, hn, Option.map_some, if_pos rfl] at hnode
  rw [children_eq hnode, children_eq hn]

theorem attrs_attachAll {t : Tree} {parent id : Nat} (hparent : parent < t.size)
    (hid : id < t.size) (u : List Sign) : (t.attachAll parent u).attrs id = t.attrs id := by
  rw [attrs, node?_attachAll hparent, if_pos hid, attrs]
  cases t.node? id with
  | none => rfl
  | some n => by_cases h : id = parent <;> simp [h]

/-! ## Signs -/

def sign? (t : Tree) (id : Nat) : Option Sign := (t.node? id).map Node.sign

theorem lt_size_of_sign? {t : Tree} {id : Nat} {s : Sign} (h : t.sign? id = some s) :
    id < t.size := by
  obtain ⟨n, hn, -⟩ := Option.map_eq_some_iff.mp h
  exact lt_size_of_node? hn

@[simp] theorem sign?_setAttrs (t : Tree) (id : Nat) (attrs : Attributes) (i : Nat) :
    (t.setAttrs id attrs).sign? i = t.sign? i := by
  rw [sign?, node?_setAttrs, Option.map_map, sign?]
  congr 1
  funext n
  by_cases h : i = id
  · simp [h]
  · simp [h]

theorem sign?_attach (t : Tree) (parent : Nat) (s : Sign) (i : Nat) :
    (t.attach parent s).sign? i = if i = t.size then some s else t.sign? i := by
  rw [sign?, node?_attach, sign?]
  split
  · rfl
  · rw [Option.map_map]
    congr 1
    funext n
    by_cases h : i = parent
    · simp [h]
    · simp [h]

theorem sign?_attachAll (t : Tree) (parent : Nat) (signs : List Sign) (id : Nat) :
    (t.attachAll parent signs).sign? id =
      if id < t.size then t.sign? id else signs[id - t.size]? := by
  induction signs generalizing t with
  | nil =>
    split
    · rfl
    next h => simp [attachAll, sign?, node?, show t.nodes.size ≤ id from Nat.le_of_not_lt h]
  | cons s signs ih =>
    have hcons : t.attachAll parent (s :: signs) = (t.attach parent s).attachAll parent signs := rfl
    rw [hcons, ih, size_attach, sign?_attach]
    rcases Nat.lt_trichotomy id t.size with h | h | h
    · simp [h, Nat.lt_succ_of_lt h, Nat.ne_of_lt h]
    · simp [h]
    · obtain ⟨k, rfl⟩ := Nat.exists_eq_add_of_lt h
      have hk : t.size + k + 1 - t.size = (t.size + k + 1 - (t.size + 1)) + 1 := by omega
      rw [if_neg (by omega), if_neg (by omega), hk, List.getElem?_cons_succ]

/-! ## Links -/

/-- Every parent was there before its child. -/
def Linked (t : Tree) : Prop := ∀ id parent, t.parent? id = some parent → parent < id

theorem parent?_setAttrs (t : Tree) (id : Nat) (attrs : Attributes) (i : Nat) :
    (t.setAttrs id attrs).parent? i = t.parent? i := by
  rw [parent?, node?_setAttrs, parent?]
  cases t.node? i with
  | none => rfl
  | some n => by_cases h : i = id <;> simp [h]

theorem parent?_attachAll {t : Tree} {id : Nat} (hid : id < t.size) (u : List Sign) (i : Nat) :
    (t.attachAll id u).parent? i =
      if i < t.size then t.parent? i else (u[i - t.size]?).map fun _ => id := by
  rw [parent?, node?_attachAll hid]
  split
  · rw [parent?]
    cases t.node? i with
    | none => rfl
    | some n => by_cases h : i = id <;> simp [h]
  · cases u[i - t.size]? with
    | none => rfl
    | some s => rfl

theorem Linked.setAttrs {t : Tree} (h : t.Linked) (id : Nat) (attrs : Attributes) :
    (t.setAttrs id attrs).Linked := fun i parent hp => h i parent (by rwa [parent?_setAttrs] at hp)

theorem Linked.attachAll {t : Tree} (h : t.Linked) {id : Nat} (hid : id < t.size)
    (u : List Sign) : (t.attachAll id u).Linked := by
  intro i parent hp
  rw [parent?_attachAll hid] at hp
  split at hp
  · exact h i parent hp
  · obtain ⟨_, -, rfl⟩ := Option.map_eq_some_iff.mp hp
    omega

end PredictiveParsing.Tree
