import PredictiveParsing.Proofs.Parse.Errands

/-!
# The occasions of errands

An errand is there because a production puts it there: a child is visited behind the action of its
slot, an action belongs to a slot, or opens or closes a node. `Occasion` says so, with what has to
come before the errand and behind it.

* `WellLinked.occasion`: wherever the errands of a tree are cut, there is an occasion for the one at
  the cut;
* `Production.posts`: the actions of a production with the signs of the nodes at which they run.
-/

namespace PredictiveParsing

variable {α : Type}

open Errand

/-! ## Occasions -/

/-- The reason for an errand, and what comes before it and behind it. -/
inductive Tree.Occasion (t : Tree) (plan : Nat → Option (Production α))
    (before after : List (Errand α)) : Errand α → Prop
  /-- A child is visited behind its parent and behind the action of its slot. -/
  | visit {parent i id : Nat} {p : Production α} (hplan : plan parent = some p)
      (hchild : t.child? parent i = some id) (hparent : .visit parent ∈ before)
      (hslot : ofAction (p.slots[i]?).join id ⊆ before) : Occasion t plan before after (.visit id)
  /-- The action of a slot comes behind the siblings before the child, and before the child. -/
  | slot {parent i id : Nat} {p : Production α} {action : α} (hplan : plan parent = some p)
      (hchild : t.child? parent i = some id) (hslot : (p.slots[i]?).join = some action)
      (hparent : .visit parent ∈ before)
      (hsiblings : ∀ j < i, ∀ c, t.child? parent j = some c → t.errands plan c ⊆ before)
      (hvisit : .visit id ∈ after) : Occasion t plan before after (.act action id)
  /-- The opening action comes behind the visit of the node. -/
  | opening {id : Nat} {p : Production α} {action : α} (hplan : plan id = some p)
      (hopening : p.opening = some action) (hvisit : .visit id ∈ before) :
      Occasion t plan before after (.act action id)
  /-- The closing action comes behind everything else at and below the node. -/
  | closing {id : Nat} {p : Production α} {action : α} (hplan : plan id = some p)
      (hclosing : p.closing = some action) (hvisit : .visit id ∈ before)
      (hopening : ofAction p.opening id ⊆ before)
      (hbelow : ∀ c ∈ t.children id, t.errands plan c ⊆ before) :
      Occasion t plan before after (.act action id)

namespace Tree

variable {t : Tree} {plan : Nat → Option (Production α)} {before before' after after' : List (Errand α)}
  {e : Errand α}

theorem Occasion.mono (h : t.Occasion plan before after e) (hbefore : before ⊆ before')
    (hafter : after ⊆ after') : t.Occasion plan before' after' e := by
  cases h with
  | visit hplan hchild hparent hslot =>
    exact .visit hplan hchild (hbefore hparent) (List.Subset.trans hslot hbefore)
  | slot hplan hchild hslot hparent hsiblings hvisit =>
    exact .slot hplan hchild hslot (hbefore hparent)
      (fun j hj c hc => List.Subset.trans (hsiblings j hj c hc) hbefore) (hafter hvisit)
  | opening hplan hopening hvisit => exact .opening hplan hopening (hbefore hvisit)
  | closing hplan hclosing hvisit hopening hbelow =>
    exact .closing hplan hclosing (hbefore hvisit) (List.Subset.trans hopening hbefore)
      fun c hc => List.Subset.trans (hbelow c hc) hbefore

end Tree

theorem Errand.act_mem_ofAction {action : Option α} {id id' : Nat} {a : α} :
    .act a id ∈ ofAction action id' ↔ action = some a ∧ id = id' := by
  cases action with
  | none => simp [ofAction]
  | some b => simp [ofAction, eq_comm]

theorem Errand.ofAction_eq_middle {action : Option α} {id : Nat} {before after : List (Errand α)}
    {e : Errand α} (h : ofAction action id = before ++ e :: after) :
    before = [] ∧ ∃ a, action = some a ∧ e = .act a id := by
  cases action with
  | none => simp [ofAction] at h
  | some a =>
    cases before with
    | nil => exact ⟨rfl, a, rfl, (List.cons.inj h).1.symm⟩
    | cons => simp [ofAction] at h

theorem Production.subset_errandsFrom (p : Production α) {below : Nat → List (Errand α)}
    {children : List Nat} {c : Nat} (hc : c ∈ children) (i : Nat) :
    below c ⊆ p.errandsFrom below i children := by
  induction children generalizing i with
  | nil => cases hc
  | cons c' children ih =>
    rw [errandsFrom]
    refine List.subset_append_of_subset_right _ ?_
    rcases List.mem_cons.mp hc with rfl | hc
    · exact List.subset_append_left _ _
    · exact List.subset_append_of_subset_right _ (ih hc (i + 1))

/-- An errand among those of some children is the action of a slot or an errand of that child. -/
theorem Production.errandsFrom_eq_middle {p : Production α} {below : Nat → List (Errand α)}
    {children : List Nat} {i : Nat} {before after : List (Errand α)} {e : Errand α}
    (h : p.errandsFrom below i children = before ++ e :: after) :
    ∃ j c, children[j]? = some c ∧
      (∀ k < j, ∀ c', children[k]? = some c' → below c' ⊆ before) ∧
      ((∃ action, (p.slots[i + j]?).join = some action ∧ e = .act action c ∧ below c ⊆ after) ∨
        ∃ before' after', below c = before' ++ e :: after' ∧
          ofAction (p.slots[i + j]?).join c ⊆ before ∧ before' ⊆ before ∧ after' ⊆ after) := by
  induction children generalizing i before with
  | nil => simp [errandsFrom] at h
  | cons c children ih =>
    rw [errandsFrom] at h
    rcases append_eq_middle h with ⟨rest, hslot, rfl⟩ | ⟨before₁, rfl, hbelow⟩
    · obtain ⟨-, action, haction, rfl⟩ := ofAction_eq_middle hslot
      refine ⟨0, c, rfl, fun k hk => absurd hk (Nat.not_lt_zero k), .inl ⟨action, haction, rfl, ?_⟩⟩
      exact List.subset_append_of_subset_right _ (List.subset_append_left _ _)
    rcases append_eq_middle hbelow with ⟨rest, hc, rfl⟩ | ⟨before₂, rfl, hlater⟩
    · refine ⟨0, c, rfl, fun k hk => absurd hk (Nat.not_lt_zero k), .inr ⟨before₁, rest, hc, ?_⟩⟩
      exact ⟨List.subset_append_left _ _, List.subset_append_right _ _, List.subset_append_left _ _⟩
    · obtain ⟨j, c', hc', hsiblings, hcases⟩ := ih hlater
      have hbehind : before₂ ⊆ ofAction (p.slots[i]?).join c ++ (below c ++ before₂) :=
        List.subset_append_of_subset_right _ (List.subset_append_right _ _)
      refine ⟨j + 1, c', hc', fun k hk c'' hc'' => ?_, ?_⟩
      · cases k with
        | zero =>
          cases hc''
          exact List.subset_append_of_subset_right _ (List.subset_append_left _ _)
        | succ k =>
          exact List.Subset.trans (hsiblings k (Nat.lt_of_succ_lt_succ hk) c'' hc'') hbehind
      · rw [Nat.add_assoc, Nat.add_comm 1 j] at hcases
        refine hcases.imp_right ?_
        rintro ⟨before', after', heq, hslot, hbefore, hafter⟩
        exact ⟨before', after', heq, List.Subset.trans hslot hbehind,
          List.Subset.trans hbefore hbehind, hafter⟩

theorem Tree.WellLinked.visit_mem_errands {t : Tree} (h : t.WellLinked)
    {plan : Nat → Option (Production α)} {id : Nat} (hid : id < t.size) :
    .visit id ∈ t.errands plan id := by
  rw [errands_eq h hid]
  exact List.mem_cons_self

/-- The action that closes a node is among the errands there. -/
theorem Tree.WellLinked.closing_mem_errands {t : Tree} (h : t.WellLinked)
    {plan : Nat → Option (Production α)} {id : Nat} (hid : id < t.size) {p : Production α}
    (hplan : plan id = some p) {action : α} (hclosing : p.closing = some action) :
    .act action id ∈ t.errands plan id := by
  rw [errands_of_planned h hid hplan, Production.errands]
  refine List.mem_cons_of_mem _ (List.mem_append_right _ (List.mem_append_right _ ?_))
  exact act_mem_ofAction.mpr ⟨hclosing, rfl⟩

/-- Wherever the errands of a tree are cut, there is an occasion for the errand at the cut, unless it
is the visit at the top. -/
theorem Tree.WellLinked.occasion {t : Tree} (h : t.WellLinked)
    {plan : Nat → Option (Production α)} : ∀ top < t.size, ∀ before e after,
      t.errands plan top = before ++ e :: after →
        e = .visit top ∨ t.Occasion plan before after e := by
  refine h.induction_up fun top htop ih before e after he => ?_
  cases before with
  | nil =>
    rw [errands_eq h htop] at he
    exact .inl (List.cons.inj he).1.symm
  | cons first before =>
    cases hplan : plan top with
    | none =>
      rw [errands_of_unplanned h htop hplan] at he
      simp at he
    | some p =>
      right
      rw [errands_of_planned h htop hplan, List.cons_append, Production.errands] at he
      obtain ⟨rfl, hrest⟩ := List.cons.inj he
      rcases append_eq_middle hrest with ⟨rest, hopening, -⟩ | ⟨before₁, rfl, hbehind⟩
      · obtain ⟨-, action, haction, rfl⟩ := ofAction_eq_middle hopening
        exact .opening hplan haction List.mem_cons_self
      rcases append_eq_middle hbehind with ⟨rest, hchildren, rfl⟩ | ⟨before₂, rfl, hclosing⟩
      · obtain ⟨i, c, hc, hsiblings, hcases⟩ := Production.errandsFrom_eq_middle hchildren
        have hlater : before₁ ⊆ .visit top :: (ofAction p.opening top ++ before₁) :=
          List.subset_cons_of_subset _ (List.subset_append_right _ _)
        have hmem : c ∈ t.children top := List.mem_of_getElem? hc
        rw [Nat.zero_add] at hcases
        rcases hcases with ⟨action, hslot, rfl, hbelow⟩ |
            ⟨before', after', hbelow, hslot, hbefore, hafter⟩
        · refine .slot hplan hc hslot List.mem_cons_self
            (fun j hj c' hc' => List.Subset.trans (hsiblings j hj c' hc') hlater) ?_
          exact List.mem_append_left _ (hbelow (h.visit_mem_errands (h.lt_child hmem).2))
        · rcases ih c hmem before' e after' hbelow with rfl | hoccasion
          · exact .visit hplan hc List.mem_cons_self (List.Subset.trans hslot hlater)
          · exact hoccasion.mono (List.Subset.trans hbefore hlater)
              (List.Subset.trans hafter (List.subset_append_left _ _))
      · obtain ⟨rfl, action, haction, rfl⟩ := ofAction_eq_middle hclosing
        rw [List.append_nil]
        refine .closing hplan haction List.mem_cons_self
          (List.subset_cons_of_subset _ (List.subset_append_left _ _)) fun c hc => ?_
        exact List.subset_cons_of_subset _
          (List.subset_append_of_subset_right _ (p.subset_errandsFrom hc 0))

/-! ## Posts -/

/-- The actions of a production, each with the sign of the node at which it runs. -/
def Production.posts (p : Production α) : List (α × Sign) :=
  ((p.opening.toList ++ p.closing.toList).map fun action => (action, .nonTerminal p.left)) ++
    (p.slots.zip p.right).filterMap fun (slot, s) => slot.map fun action => (action, s)

namespace Production

variable {p : Production α} {action : α}

theorem opening_mem_posts (h : p.opening = some action) :
    (action, .nonTerminal p.left) ∈ p.posts := by
  simp [posts, h]

theorem closing_mem_posts (h : p.closing = some action) :
    (action, .nonTerminal p.left) ∈ p.posts := by
  simp [posts, h]

theorem slot_mem_posts {i : Nat} {s : Sign} (h : (p.slots[i]?).join = some action)
    (hs : p.right[i]? = some s) : (action, s) ∈ p.posts := by
  have hslot : p.slots[i]? = some (some action) := Option.join_eq_some_iff.mp h
  refine List.mem_append_right _ (List.mem_filterMap.mpr ⟨(some action, s), ?_, rfl⟩)
  exact List.mem_of_getElem? (List.getElem?_zip_eq_some.mpr ⟨hslot, hs⟩)

end Production

end PredictiveParsing
