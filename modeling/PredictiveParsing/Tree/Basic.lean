import PredictiveParsing.Grammar.Sign
import PredictiveParsing.Symbols.Basic

/-!
# Parse trees

A tree is an arena of nodes that name each other by their number, which is the order in which they
were made; the root is node 0. A node knows its sign, its children, its parent, its place among the
parent's children, and the attributes that actions write.
-/

namespace PredictiveParsing

structure Attributes where
  /-- The text of the matched token. -/
  lexical : Option String := none
  /-- The line of the matched token, or one handed on. -/
  line : Option Nat := none
  code : List String := []
  ty : Option ValueType := none
  id : Option String := none
  length : Option Nat := none
  /-- The function that is defined below the node. -/
  function : Option String := none
  num : Option Int := none
  names : List String := []
  flag : Option Bool := none
  op : Option String := none
  add : Option Nat := none
  mul : Option Nat := none
  deriving DecidableEq, Repr, Inhabited

structure Node where
  sign : Sign
  children : List Nat := []
  parent : Option Nat := none
  position : Nat := 0
  attrs : Attributes := {}
  deriving DecidableEq, Repr, Inhabited

structure Tree where
  nodes : Array Node
  deriving DecidableEq, Repr, Inhabited

namespace Tree

def root : Nat := 0

def ofRoot (sign : Sign) : Tree := ⟨#[{ sign }]⟩

def size (t : Tree) : Nat := t.nodes.size

def node? (t : Tree) (id : Nat) : Option Node := t.nodes[id]?

/-- A new node that hangs under no other; its number is the size before. -/
def alloc (t : Tree) (sign : Sign) : Tree := ⟨t.nodes.push { sign }⟩

def children (t : Tree) (id : Nat) : List Nat := (t.node? id).elim [] Node.children

/-- A new last child of `parent`; its number is the size before. -/
def attach (t : Tree) (parent : Nat) (sign : Sign) : Tree :=
  let child : Node := { sign, parent := some parent, position := (t.children parent).length }
  match t with
  | ⟨nodes⟩ =>
    let id := nodes.size
    ⟨(nodes.modify parent fun n => { n with children := n.children ++ [id] }).push child⟩

def attachAll (t : Tree) (parent : Nat) (signs : List Sign) : Tree :=
  signs.foldl (fun t s => t.attach parent s) t

def attrs (t : Tree) (id : Nat) : Attributes := (t.node? id).elim {} Node.attrs

def setAttrs (t : Tree) (id : Nat) (attrs : Attributes) : Tree :=
  match t with
  | ⟨nodes⟩ => ⟨nodes.modify id fun n => { n with attrs }⟩

def child? (t : Tree) (id i : Nat) : Option Nat := (t.children id)[i]?

def parent? (t : Tree) (id : Nat) : Option Nat := (t.node? id).bind Node.parent

/-- The sibling `back` places before a node. -/
def sibling? (t : Tree) (id back : Nat) : Option Nat := do
  let node ← t.node? id
  let parent ← node.parent
  if back ≤ node.position then t.child? parent (node.position - back) else none

@[simp] theorem size_ofRoot (sign : Sign) : (ofRoot sign).size = 1 := rfl

@[simp] theorem size_alloc (t : Tree) (sign : Sign) : (t.alloc sign).size = t.size + 1 := by
  simp [alloc, size]

@[simp] theorem size_attach (t : Tree) (parent : Nat) (sign : Sign) :
    (t.attach parent sign).size = t.size + 1 := by
  simp [attach, size]

@[simp] theorem size_attachAll (t : Tree) (parent : Nat) (signs : List Sign) :
    (t.attachAll parent signs).size = t.size + signs.length := by
  induction signs generalizing t with
  | nil => rfl
  | cons s ss ih =>
    have h : t.attachAll parent (s :: ss) = (t.attach parent s).attachAll parent ss := rfl
    rw [h, ih, size_attach, List.length_cons, Nat.add_assoc, Nat.add_comm 1]

@[simp] theorem size_setAttrs (t : Tree) (id : Nat) (attrs : Attributes) :
    (t.setAttrs id attrs).size = t.size := by
  simp [setAttrs, size]

/-- Attributes are read back where they are written. -/
theorem attrs_setAttrs {t : Tree} {id : Nat} (h : id < t.size) (attrs : Attributes) (id' : Nat) :
    (t.setAttrs id attrs).attrs id' = if id' = id then attrs else t.attrs id' := by
  have h' : id < t.nodes.size := h
  simp only [Tree.attrs, node?, setAttrs, Array.getElem?_modify]
  by_cases he : id' = id
  · subst he; simp [h']
  · simp [he, Ne.symm he]

/-! ## Ways through a tree -/

/-- At most `bound` nodes on the way up from `id`, which is left out. -/
def ancestorsUpTo (t : Tree) : Nat → Nat → List Nat
  | 0, _ => []
  | bound + 1, id =>
    match t.parent? id with
    | none => []
    | some parent => parent :: ancestorsUpTo t bound parent

/-- The parent of a node, that one's parent, and so on; no way up is longer than the tree. -/
def ancestors (t : Tree) (id : Nat) : List Nat := t.ancestorsUpTo t.size id

/-- Visit at most `bound` nodes in pre-order, from a list of nodes with their depths; `done` has
those visited before, the last one first. -/
def visit (t : Tree) : Nat → List (Nat × Nat) → List (Nat × Nat) → List (Nat × Nat)
  | 0, _, done => done.reverse
  | _, [], done => done.reverse
  | bound + 1, (id, depth) :: rest, done =>
    visit t bound ((t.children id).map (fun c => (c, depth + 1)) ++ rest) ((id, depth) :: done)

/-- The nodes below and at the root in pre-order, with their depths. -/
def preorder (t : Tree) : List (Nat × Nat) := t.visit t.size [(root, 0)] []

/-- The terminals below the root, from left to right. -/
def leaves (t : Tree) : List Nat :=
  (t.preorder.map (·.1)).filter fun id => (t.node? id).any fun n => n.sign.isTerminal

/-- The texts of the matched leaves, from left to right. -/
def leafTexts (t : Tree) : List String := t.leaves.filterMap fun id => (t.attrs id).lexical

end Tree

end PredictiveParsing
