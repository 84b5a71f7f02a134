import PredictiveParsing.Proofs.Parse.Walk
import PredictiveParsing.Proofs.Tree.Links

/-!
# Errands of a tree

The errands of a tree are what is to be done on the way through it, given the productions by which
its nodes were expanded: a node is visited, then come the opening action of its production, each
child with the action of its slot before it, and the closing action.

* `errands_eq`: the errands at and below a node, by those of its children;
* `visits_errands`: the nodes are visited in the order of `subtree`;
* `errands_attachAll`: when a node is expanded, its visit is followed by the errands of its
  production, and the others stay where they are.
-/

namespace PredictiveParsing

variable {α : Type}

inductive Errand (α : Type) where
  | visit (id : Nat)
  | act (action : α) (id : Nat)
  deriving DecidableEq, Repr

namespace Errand

/-- The errand of a place for an action, unless the place is empty. -/
def ofAction (action : Option α) (id : Nat) : List (Errand α) :=
  action.toList.map fun action => act action id

def visited? : Errand α → Option Nat
  | visit id => some id
  | act .. => none

/-- The action of an errand, where the semantics has an effect for it. -/
def action? (s : Semantics α) : Errand α → Option (α × Nat)
  | visit _ => none
  | act action id => (s action id).map fun _ => (action, id)

/-- The nodes that are visited, in their order. -/
def visits (errands : List (Errand α)) : List Nat := errands.filterMap visited?

/-- The actions that are run, in their order. -/
def actions (s : Semantics α) (errands : List (Errand α)) : List (α × Nat) :=
  errands.filterMap (action? s)

theorem visits_append (l l' : List (Errand α)) : visits (l ++ l') = visits l ++ visits l' :=
  List.filterMap_append

theorem actions_append (s : Semantics α) (l l' : List (Errand α)) :
    actions s (l ++ l') = actions s l ++ actions s l' :=
  List.filterMap_append

theorem mem_visits {id : Nat} {errands : List (Errand α)} :
    id ∈ visits errands ↔ visit id ∈ errands := by
  rw [visits, List.mem_filterMap]
  constructor
  · rintro ⟨_ | _, he, hid⟩
    · cases hid
      exact he
    · cases hid
  · exact fun h => ⟨_, h, rfl⟩

@[simp] theorem visits_ofAction (action : Option α) (id : Nat) :
    visits (ofAction action id) = [] := by
  cases action <;> rfl

theorem visit_not_mem_ofAction (action : Option α) (id id' : Nat) :
    visit id' ∉ ofAction action id := by
  rw [← mem_visits, visits_ofAction]
  exact List.not_mem_nil

/-! ## Unfolding a visit -/

/-- Other errands in the place of a visit of the node `id`. -/
def unfold (id : Nat) (errands : List (Errand α)) : Errand α → List (Errand α)
  | visit id' => if id' = id then errands else [visit id']
  | act action id' => [act action id']

variable {id : Nat} {errands : List (Errand α)}

theorem flatMap_unfold_of_not_mem {l : List (Errand α)} (h : visit id ∉ l) :
    l.flatMap (unfold id errands) = l := by
  induction l with
  | nil => rfl
  | cons e l ih =>
    obtain ⟨he, hl⟩ := not_or.mp (List.mem_cons.not.mp h)
    rw [List.flatMap_cons, ih hl]
    cases e with
    | act => rfl
    | visit id' =>
      rw [unfold, if_neg fun hid : id' = id => he (hid ▸ rfl)]
      rfl

theorem flatMap_unfold {l l' : List (Errand α)} (h : visit id ∉ l) (h' : visit id ∉ l') :
    (l ++ visit id :: l').flatMap (unfold id errands) = l ++ (errands ++ l') := by
  rw [List.flatMap_append, List.flatMap_cons, flatMap_unfold_of_not_mem h,
    flatMap_unfold_of_not_mem h', unfold, if_pos rfl]

end Errand

open Errand

/-! ## Errands of nodes -/

/-- The errands of children, the first at position `i`, given those below each child. -/
def Production.errandsFrom (p : Production α) (below : Nat → List (Errand α)) :
    Nat → List Nat → List (Errand α)
  | _, [] => []
  | i, child :: children =>
    ofAction (p.slots[i]?).join child ++ (below child ++ errandsFrom p below (i + 1) children)

/-- The errands of a node, given its children and the errands below each child. -/
def Production.errands (p : Production α) (id : Nat) (children : List Nat)
    (below : Nat → List (Errand α)) : List (Errand α) :=
  ofAction p.opening id ++ (p.errandsFrom below 0 children ++ ofAction p.closing id)

theorem Production.errandsFrom_congr {p : Production α} {below below' : Nat → List (Errand α)}
    {children : List Nat} (h : ∀ c ∈ children, below c = below' c) (i : Nat) :
    p.errandsFrom below i children = p.errandsFrom below' i children := by
  induction children generalizing i with
  | nil => rfl
  | cons c children ih =>
    obtain ⟨hc, hrest⟩ := List.forall_mem_cons.mp h
    rw [errandsFrom, errandsFrom, hc, ih hrest]

theorem Production.visits_errandsFrom (p : Production α) (below : Nat → List (Errand α)) (i : Nat)
    (children : List Nat) :
    visits (p.errandsFrom below i children) = children.flatMap fun c => visits (below c) := by
  induction children generalizing i with
  | nil => rfl
  | cons c children ih =>
    rw [errandsFrom, visits_append, visits_append, visits_ofAction, ih, List.flatMap_cons,
      List.nil_append]

theorem Production.flatMap_unfold_errandsFrom (p : Production α) (below : Nat → List (Errand α))
    (i : Nat) (children : List Nat) (id : Nat) (errands : List (Errand α)) :
    (p.errandsFrom below i children).flatMap (unfold id errands) =
      p.errandsFrom (fun c => (below c).flatMap (unfold id errands)) i children := by
  induction children generalizing i with
  | nil => rfl
  | cons c children ih =>
    rw [errandsFrom, errandsFrom, List.flatMap_append, List.flatMap_append, ih,
      flatMap_unfold_of_not_mem (visit_not_mem_ofAction _ _ _)]

namespace Tree

/-- The errands at and below a node, on at most `bound` levels; `plan` says by which production a
node was expanded. -/
def errandsUpTo (t : Tree) (plan : Nat → Option (Production α)) : Nat → Nat → List (Errand α)
  | 0, _ => []
  | bound + 1, id =>
    .visit id ::
      match plan id with
      | none => []
      | some p => p.errands id (t.children id) (t.errandsUpTo plan bound)

/-- The errands at and below a node. -/
def errands (t : Tree) (plan : Nat → Option (Production α)) (id : Nat) : List (Errand α) :=
  t.errandsUpTo plan t.size id

theorem errands_eq_of_bare {t t' : Tree} (h : t'.bare = t.bare)
    (plan : Nat → Option (Production α)) (id : Nat) : t'.errands plan id = t.errands plan id := by
  have hbound : ∀ bound id, t'.errandsUpTo plan bound id = t.errandsUpTo plan bound id := by
    intro bound
    induction bound with
    | zero => exact fun _ => rfl
    | succ bound ih =>
      intro id
      rw [errandsUpTo, errandsUpTo, children_eq_of_bare h, funext ih]
  rw [errands, hbound, size_eq_of_bare h, errands]

section WellLinked

variable {t : Tree} (h : t.WellLinked) {plan : Nat → Option (Production α)}

include h

theorem errands_eq {id : Nat} (hid : id < t.size) :
    t.errands plan id = .visit id ::
      match plan id with
      | none => []
      | some p => p.errands id (t.children id) (t.errands plan) := by
  have hbound := h.settled (f := t.errandsUpTo plan) (fun b b' id hc => ?_) hid
    (b := t.size + 1) (by omega)
  · exact hbound.symm
  · rw [errandsUpTo, errandsUpTo]
    cases plan id with
    | none => rfl
    | some p => simp only [Production.errands, Production.errandsFrom_congr hc]

/-- A node that was not expanded is only visited. -/
theorem errands_of_unplanned {id : Nat} (hid : id < t.size) (hplan : plan id = none) :
    t.errands plan id = [.visit id] := by
  rw [errands_eq h hid, hplan]

theorem errands_of_planned {id : Nat} (hid : id < t.size) {p : Production α}
    (hplan : plan id = some p) :
    t.errands plan id = .visit id :: p.errands id (t.children id) (t.errands plan) := by
  rw [errands_eq h hid, hplan]

theorem visits_errands (hchildless : ∀ id, plan id = none → t.children id = []) :
    ∀ id < t.size, visits (t.errands plan id) = t.subtree id := by
  refine h.induction_up fun id hid ih => ?_
  rw [subtree_eq h hid]
  cases hplan : plan id with
  | none =>
    rw [errands_of_unplanned h hid hplan, hchildless id hplan]
    rfl
  | some p =>
    have hvisit : ∀ l : List (Errand α), visits (.visit id :: l) = id :: visits l := fun _ => rfl
    rw [errands_of_planned h hid hplan, hvisit, Production.errands, visits_append, visits_append,
      visits_ofAction, visits_ofAction, List.nil_append, List.append_nil,
      Production.visits_errandsFrom, List.flatMap_congr ih]

/-! ## Expansion -/

/-- The errands that an expansion by `p` puts behind the visit of a node whose children are the
nodes from `first` on. -/
def expansionErrands (p : Production α) (id first count : Nat) : List (Errand α) :=
  p.errands id (List.range' first count) fun c => [.visit c]

theorem errands_attachAll {x : Nat} (hx : x < t.size) (hplan : plan x = none)
    (hchildren : t.children x = []) (hlate : ∀ id, t.size ≤ id → plan id = none) (p : Production α)
    (u : List Sign) : ∀ id < t.size,
      (t.attachAll x u).errands (fun id => if id = x then some p else plan id) id =
        (t.errands plan id).flatMap
          (unfold x (.visit x :: expansionErrands p x t.size u.length)) := by
  have h' : (t.attachAll x u).WellLinked := h.attachAll hx u
  have hsize : t.size ≤ (t.attachAll x u).size := by
    rw [size_attachAll]
    exact Nat.le_add_right ..
  refine h.induction_up fun id hid ih => ?_
  have hid' : id < (t.attachAll x u).size := Nat.lt_of_lt_of_le hid hsize
  by_cases he : id = x
  · subst he
    rw [errands_of_planned h' hid' (p := p) (if_pos rfl), errands_of_unplanned h hid hplan,
      children_attachAll hid, hchildren, List.nil_append]
    have hkids : ∀ c ∈ List.range' t.size u.length,
        (t.attachAll id u).errands (fun c => if c = id then some p else plan c) c =
          [.visit c] := by
      intro c hc
      obtain ⟨hge, hlt⟩ := List.mem_range'_1.mp hc
      refine errands_of_unplanned h' (by rwa [size_attachAll]) ?_
      rw [if_neg (by omega), hlate c hge]
    rw [Production.errands, Production.errandsFrom_congr hkids, List.flatMap_cons,
      List.flatMap_nil, List.append_nil, unfold, if_pos rfl]
    rfl
  · have hsame : (t.attachAll x u).children id = t.children id := children_attachAll_of_ne he u
    have hplan' : (if id = x then some p else plan id) = plan id := if_neg he
    cases hq : plan id with
    | none =>
      rw [errands_of_unplanned h' hid' (hplan'.trans hq), errands_of_unplanned h hid hq]
      simp [unfold, he]
    | some q =>
      rw [errands_of_planned h' hid' (hplan'.trans hq), errands_of_planned h hid hq, hsame,
        Production.errands, Production.errandsFrom_congr ih, Production.errands, List.flatMap_cons,
        List.flatMap_append, List.flatMap_append, Production.flatMap_unfold_errandsFrom,
        flatMap_unfold_of_not_mem (visit_not_mem_ofAction _ _ _),
        flatMap_unfold_of_not_mem (visit_not_mem_ofAction _ _ _), unfold, if_neg he]
      rfl

end WellLinked

end Tree

/-! ## Errands on a stack -/

namespace Machine

def ofDue (due : List (α × Nat)) : List (Errand α) := due.map fun (action, id) => .act action id

/-- What is left to be done, from the top of the stack down. -/
def pending (stack : List (Frame α)) : List (Errand α) :=
  stack.flatMap fun frame => ofDue frame.due ++ [.visit frame.node]

theorem pending_cons (frame : Frame α) (stack : List (Frame α)) :
    pending (frame :: stack) = ofDue frame.due ++ .visit frame.node :: pending stack := by
  rw [pending, List.flatMap_cons, List.append_assoc]
  rfl

theorem ofDue_toList (action : Option α) (id : Nat) :
    ofDue (action.toList.map fun action => (action, id)) = ofAction action id := by
  cases action <;> rfl

theorem pending_frames {p : Production α} {slots before : List (Option α)} (first : Nat)
    (hslots : p.slots = before ++ slots) (stack : List (Frame α)) :
    pending (frames first slots ++ stack) =
      p.errandsFrom (fun c => [.visit c]) before.length (List.range' first slots.length) ++
        pending stack := by
  induction slots generalizing first before with
  | nil => rfl
  | cons slot slots ih =>
    have hslot : (p.slots[before.length]?).join = slot := by
      rw [hslots, List.getElem?_append_right (Nat.le_refl _), Nat.sub_self, List.getElem?_cons_zero,
        Option.join_some]
    have hrest := ih (first + 1) (show p.slots = (before ++ [slot]) ++ slots by simp [hslots])
    rw [List.length_append, List.length_singleton] at hrest
    rw [frames, List.cons_append, pending_cons, hrest, ofDue_toList, List.length_cons,
      List.range'_succ, Production.errandsFrom, hslot]
    simp

theorem pending_prepend (due : List (α × Nat)) {stack : List (Frame α)} (h : stack ≠ []) :
    pending (prepend due stack) = ofDue due ++ pending stack := by
  cases stack with
  | nil => exact absurd rfl h
  | cons frame stack =>
    rw [prepend, pending_cons, pending_cons, ← List.append_assoc]
    simp [ofDue]

/-- The stack after an expansion has the errands of the production. -/
theorem pending_expansion {p : Production α} {id first : Nat} {stack : List (Frame α)}
    (h : stack ≠ []) :
    pending (prepend (p.opening.toList.map fun action => (action, id))
        (frames first p.slots ++ below p id stack)) =
      Tree.expansionErrands p id first p.slots.length ++ pending stack := by
  have hbelow : below p id stack ≠ [] := by
    rw [below_eq]
    exact prepend_eq_nil.not.mpr h
  rw [pending_prepend _ (List.append_ne_nil_of_right_ne_nil _ hbelow), ofDue_toList,
    pending_frames first (List.nil_append p.slots).symm, below_eq, pending_prepend _ h,
    ofDue_toList, Tree.expansionErrands, Production.errands]
  simp

end Machine

end PredictiveParsing
