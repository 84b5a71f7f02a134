import PredictiveParsing.Proofs.Tree.Links

/-!
# The outermost nodes of a sign

The nodes of a sign at and below a node, but none that lies below another of them.

* `outermost_eq`: they are the node itself, or those of its children;
* `outermost_attachAll`: they stay when a node gets children that is not below.
-/

namespace PredictiveParsing.Tree

/-- The outermost nodes of the sign at and below a node, from left to right, on at most `bound`
levels. -/
def outermostUpTo (t : Tree) (s : Sign) : Nat → Nat → List Nat
  | 0, _ => []
  | bound + 1, id =>
    if t.sign? id = some s then [id] else (t.children id).flatMap (t.outermostUpTo s bound)

/-- The outermost nodes of the sign at and below a node, from left to right. -/
def outermost (t : Tree) (s : Sign) (id : Nat) : List Nat := t.outermostUpTo s t.size id

theorem outermost_eq_of_bare {t t' : Tree} (h : t'.bare = t.bare) (s : Sign) (id : Nat) :
    t'.outermost s id = t.outermost s id := by
  have hbound : ∀ bound id, t'.outermostUpTo s bound id = t.outermostUpTo s bound id := by
    intro bound
    induction bound with
    | zero => exact fun _ => rfl
    | succ bound ih =>
      intro id
      rw [outermostUpTo, outermostUpTo, sign?_eq_of_bare h, children_eq_of_bare h, funext ih]
  rw [outermost, hbound, size_eq_of_bare h, outermost]

section WellLinked

variable {t : Tree} (h : t.WellLinked) {s : Sign}

include h

theorem outermost_eq {id : Nat} (hid : id < t.size) :
    t.outermost s id =
      if t.sign? id = some s then [id] else (t.children id).flatMap (t.outermost s) := by
  have hbound := h.settled (f := t.outermostUpTo s) (fun b b' id hc => ?_) hid
    (b := t.size + 1) (by omega)
  · exact hbound.symm
  · rw [outermostUpTo, outermostUpTo, List.flatMap_congr hc]

theorem outermost_of_sign? {id : Nat} (hsign : t.sign? id = some s) : t.outermost s id = [id] := by
  rw [outermost_eq h (lt_size_of_sign? hsign), if_pos hsign]

theorem outermost_of_ne {id : Nat} {s' : Sign} (hsign : t.sign? id = some s') (hs : s' ≠ s) :
    t.outermost s id = (t.children id).flatMap (t.outermost s) := by
  rw [outermost_eq h (lt_size_of_sign? hsign), if_neg]
  rw [hsign]
  exact fun he => hs (Option.some.inj he)

theorem outermost_attachAll {x : Nat} (hx : x < t.size) (u : List Sign) :
    ∀ id < t.size, x ∉ t.subtree id → (t.attachAll x u).outermost s id = t.outermost s id := by
  have h' : (t.attachAll x u).WellLinked := h.attachAll hx u
  refine h.induction_up fun id hid ih hnot => ?_
  rw [subtree_eq h hid, List.mem_cons, not_or] at hnot
  obtain ⟨hne, hbelow⟩ := hnot
  have hid' : id < (t.attachAll x u).size := by
    rw [size_attachAll]
    exact Nat.lt_add_right _ hid
  rw [outermost_eq h' hid', outermost_eq h hid, sign?_attachAll, if_pos hid,
    children_attachAll_of_ne (Ne.symm hne)]
  congr 1
  exact List.flatMap_congr fun c hc =>
    ih c hc fun hmem => hbelow (List.mem_flatMap.mpr ⟨c, hc, hmem⟩)

end WellLinked

end PredictiveParsing.Tree
