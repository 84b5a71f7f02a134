import PredictiveParsing.Proofs.Tree.Nodes

/-!
# The shape of a tree

A tree without its attributes is its shape (`bare`). Children, parents, positions and signs are read
off the shape; setting attributes does not change it (`bare_setAttrs`), and a tree grows in the same
way as its shape (`bare_attachAll`).
-/

namespace PredictiveParsing

def Node.bare (n : Node) : Node := { n with attrs := {} }

namespace Tree

/-- The tree without attributes. -/
def bare (t : Tree) : Tree := ⟨t.nodes.map Node.bare⟩

theorem node?_bare (t : Tree) (id : Nat) : t.bare.node? id = (t.node? id).map Node.bare := by
  simp [node?, bare]

@[simp] theorem size_bare (t : Tree) : t.bare.size = t.size := by
  simp [size, bare]

@[simp] theorem children_bare (t : Tree) (id : Nat) : t.bare.children id = t.children id := by
  rw [children, node?_bare, children]
  cases t.node? id <;> rfl

@[simp] theorem sign?_bare (t : Tree) (id : Nat) : t.bare.sign? id = t.sign? id := by
  rw [sign?, node?_bare, sign?]
  cases t.node? id <;> rfl

@[simp] theorem bare_setAttrs (t : Tree) (id : Nat) (attrs : Attributes) :
    (t.setAttrs id attrs).bare = t.bare := by
  refine ext_node? fun i => ?_
  rw [node?_bare, node?_bare, node?_setAttrs, Option.map_map]
  congr 1
  funext n
  by_cases h : i = id
  · simp [h, Node.bare]
  · simp [h]

theorem bare_attach (t : Tree) (id : Nat) (s : Sign) :
    (t.attach id s).bare = t.bare.attach id s := by
  refine ext_node? fun i => ?_
  rw [node?_bare, node?_attach, node?_attach, node?_bare, size_bare, children_bare]
  by_cases h : i = t.size
  · simp [h, Node.bare]
  · simp only [if_neg h, Option.map_map]
    congr 1
    funext n
    by_cases hid : i = id
    · simp [hid, Node.bare]
    · simp [hid, Node.bare]

theorem bare_attachAll (t : Tree) (id : Nat) (signs : List Sign) :
    (t.attachAll id signs).bare = t.bare.attachAll id signs := by
  induction signs generalizing t with
  | nil => rfl
  | cons s signs ih =>
    have hcons : ∀ t' : Tree, t'.attachAll id (s :: signs) = (t'.attach id s).attachAll id signs :=
      fun _ => rfl
    rw [hcons, hcons, ih, bare_attach]

/-! ## Trees of one shape -/

section SameShape

variable {t t' : Tree} (h : t'.bare = t.bare)

include h

theorem size_eq_of_bare : t'.size = t.size := by
  rw [← size_bare, h, size_bare]

theorem children_eq_of_bare (id : Nat) : t'.children id = t.children id := by
  rw [← children_bare, h, children_bare]

theorem sign?_eq_of_bare (id : Nat) : t'.sign? id = t.sign? id := by
  rw [← sign?_bare, h, sign?_bare]

theorem attachAll_bare_eq (id : Nat) (signs : List Sign) :
    (t'.attachAll id signs).bare = (t.attachAll id signs).bare := by
  rw [bare_attachAll, h, bare_attachAll]

end SameShape

end Tree

end PredictiveParsing
