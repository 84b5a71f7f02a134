import PredictiveParsing.Proofs.Parse.Occasions
import PredictiveParsing.Proofs.Parse.Traversal
import PredictiveParsing.Proofs.Table.Fitting

/-!
# Moments of a run

At a moment between two errands of a run it is known what came before any of them and what comes
behind it: the tree was grown by the productions, and their order is that of the errands
(`Traversal.occasion`).

* `Moment.of_visit`: what comes before the visit of a node;
* `Moment.of_slots`, `Moment.of_opens`, `Moment.of_closes`: what comes before an action, for one that
  has only one kind of place in the productions;
* `Moment.post`: an action runs at a node with the sign that a production has for it.
-/

namespace PredictiveParsing

variable {α : Type}

open Errand

namespace Grammar

variable (g : Grammar α) (action : α)

/-- The action stands nowhere but in slots. -/
def OnlyFills : Prop := ∀ p ∈ g.productions, p.opening ≠ some action ∧ p.closing ≠ some action

/-- The action does nothing but open nodes. -/
def OnlyOpens : Prop := ∀ p ∈ g.productions, p.closing ≠ some action ∧ some action ∉ p.slots

/-- The action does nothing but close nodes. -/
def OnlyCloses : Prop := ∀ p ∈ g.productions, p.opening ≠ some action ∧ some action ∉ p.slots

end Grammar

namespace Machine

variable {m : Machine α}

/-- Some errands are done and the others ahead, and the tree was grown by the productions. -/
structure Moment (m : Machine α) (t : Tree) (history : List (Event α))
    (done ahead : List (Errand α)) : Prop extends m.Traversal t history done ahead where
  grown : ∀ id p, m.grammar.planOf history id = some p →
    (t.children id).map t.sign? = p.right.map some
  expanded : ∀ id nt, .visit id ∈ done → t.sign? id = some (.nonTerminal nt) →
    m.grammar.planOf history id ≠ none

theorem Underway.moment {done : List (Errand α)} {c : Config α} (U : m.Underway done c) :
    m.Moment c.workspace.tree c.history done (pending c.stack) :=
  ⟨U.toTraversal, U.grown, U.expanded⟩

theorem mem_of_offers (ht : m.table.Fits m.grammar) {t : Tree} {id : Nat} {p : Production α}
    (h : m.Offers t id p) :
    p ∈ m.grammar.productions ∧ t.sign? id = some (.nonTerminal p.left) := by
  obtain ⟨nt, x, index, hsign, hcell, hp⟩ := h
  obtain ⟨p', hp', rfl⟩ := ht.chosen nt x index hcell
  cases hp.symm.trans hp'
  exact ⟨List.mem_of_getElem? hp, hsign⟩

section Moment

variable {t : Tree} {history : List (Event α)} {done ahead before after : List (Errand α)}

/-- Wherever the errands are cut, there is an occasion for the one at the cut, unless it is the visit
of the root or of the end mark. -/
theorem Traversal.occasion (T : m.Traversal t history done ahead) {e : Errand α}
    (h : done ++ ahead = before ++ e :: after) (hroot : e ≠ .visit Tree.root)
    (hmark : e ≠ .visit sentinel) : t.Occasion (m.grammar.planOf history) before after e := by
  rcases append_eq_middle (T.whole.trans h) with ⟨rest, herrands, rfl⟩ | ⟨rest, -, hlast⟩
  · have hoccasion := T.rooted.occasion _ T.rooted.root_lt before e rest herrands
    exact (hoccasion.resolve_left hroot).mono (List.Subset.refl _) (List.subset_append_left _ _)
  · cases rest with
    | nil => exact absurd (List.cons.inj hlast).1.symm hmark
    | cons => simp at hlast

namespace Moment

variable (M : m.Moment t history done ahead)

include M

theorem child_sign? {id i c : Nat} {p : Production α} (hplan : m.grammar.planOf history id = some p)
    (hc : t.child? id i = some c) : ∃ s, p.right[i]? = some s ∧ t.sign? c = some s := by
  have hgrown := congrArg (·[i]?) (M.grown id p hplan)
  have hchild : (t.children id)[i]? = some c := hc
  simp only [List.getElem?_map, hchild, Option.map_some] at hgrown
  obtain ⟨s, hs, he⟩ := Option.map_eq_some_iff.mp hgrown.symm
  exact ⟨s, hs, he.symm⟩

theorem exists_child {id i : Nat} {p : Production α} (hplan : m.grammar.planOf history id = some p)
    {s : Sign} (hs : p.right[i]? = some s) : ∃ c, t.child? id i = some c ∧ t.sign? c = some s := by
  have hgrown := congrArg (·[i]?) (M.grown id p hplan)
  simp only [List.getElem?_map, hs, Option.map_some] at hgrown
  exact Option.map_eq_some_iff.mp hgrown

/-- When everything at and below a node is done, all nodes there were visited. -/
theorem visited {l : List (Errand α)} {id : Nat} (hid : id < t.size)
    (h : t.errands (m.grammar.planOf history) id ⊆ l) : ∀ x ∈ t.subtree id, .visit x ∈ l := by
  intro x hx
  rw [← Tree.visits_errands M.rooted.toWellLinked M.childless id hid] at hx
  exact h (mem_visits.mp hx)

section

variable (ht : m.table.Fits m.grammar)

include ht

theorem production {id : Nat} {p : Production α} (hplan : m.grammar.planOf history id = some p) :
    p ∈ m.grammar.productions ∧ t.sign? id = some (.nonTerminal p.left) :=
  mem_of_offers ht (M.planned id p hplan).1

/-- A node that is neither the root's nor the end mark's is visited behind the action of its slot. -/
theorem of_visit {id : Nat} (h : done ++ ahead = before ++ .visit id :: after) {s : Sign}
    (hsign : t.sign? id = some s) (hstart : s ≠ .nonTerminal m.grammar.start)
    (hpound : s ≠ .pound) :
    ∃ p ∈ m.grammar.productions, ∃ parent i, m.grammar.planOf history parent = some p ∧
      t.child? parent i = some id ∧ p.right[i]? = some s ∧ .visit parent ∈ before ∧
        ofAction (p.slots[i]?).join id ⊆ before := by
  have hroot : Errand.visit (α := α) id ≠ .visit Tree.root := by
    rintro ⟨⟩
    exact hstart (Option.some.inj (hsign.symm.trans M.start))
  have hmark : Errand.visit (α := α) id ≠ .visit sentinel := fun he =>
    M.ne_sentinel hsign hpound (Errand.visit.inj he)
  cases M.occasion h hroot hmark with
  | @visit parent i _ p hplan hchild hparent hslot =>
    obtain ⟨s', hs', hsign'⟩ := M.child_sign? hplan hchild
    cases hsign.symm.trans hsign'
    exact ⟨p, (M.production ht hplan).1, parent, i, hplan, hchild, hs', hparent, hslot⟩

/-- An action that only fills slots comes behind the siblings before its node. -/
theorem of_slots {action : α} {id : Nat} (h : done ++ ahead = before ++ .act action id :: after)
    (hrole : m.grammar.OnlyFills action) :
    ∃ p ∈ m.grammar.productions, ∃ parent i, m.grammar.planOf history parent = some p ∧
      t.child? parent i = some id ∧ (p.slots[i]?).join = some action ∧ .visit parent ∈ before ∧
        ∀ j < i, ∀ c, t.child? parent j = some c → .visit c ∈ before := by
  cases M.occasion h nofun nofun with
  | @slot parent i _ p _ hplan hchild hslot hparent hsiblings =>
    refine ⟨p, (M.production ht hplan).1, parent, i, hplan, hchild, hslot, hparent, ?_⟩
    intro j hj c hc
    have hlt := M.rooted.lt_child (List.mem_of_getElem? hc)
    exact hsiblings j hj c hc (M.rooted.visit_mem_errands hlt.2)
  | opening hplan hopening => exact absurd hopening (hrole _ (M.production ht hplan).1).1
  | closing hplan hclosing => exact absurd hclosing (hrole _ (M.production ht hplan).1).2

/-- An action that only opens nodes comes behind the visit of its node. -/
theorem of_opens {action : α} {id : Nat} (h : done ++ ahead = before ++ .act action id :: after)
    (hrole : m.grammar.OnlyOpens action) :
    ∃ p ∈ m.grammar.productions, m.grammar.planOf history id = some p ∧
      p.opening = some action ∧ .visit id ∈ before := by
  cases M.occasion h nofun nofun with
  | slot hplan _ hslot =>
    refine absurd (List.mem_of_getElem? (Option.join_eq_some_iff.mp hslot)) ?_
    exact (hrole _ (M.production ht hplan).1).2
  | @opening _ p _ hplan hopening hvisit =>
    exact ⟨p, (M.production ht hplan).1, hplan, hopening, hvisit⟩
  | closing hplan hclosing => exact absurd hclosing (hrole _ (M.production ht hplan).1).1

/-- An action that only closes nodes comes behind all that is to be done at and below its node. -/
theorem of_closes {action : α} {id : Nat} (h : done ++ ahead = before ++ .act action id :: after)
    (hrole : m.grammar.OnlyCloses action) :
    ∃ p ∈ m.grammar.productions, m.grammar.planOf history id = some p ∧
      p.closing = some action ∧ .visit id ∈ before ∧ ofAction p.opening id ⊆ before ∧
        ∀ c ∈ t.children id, t.errands (m.grammar.planOf history) c ⊆ before := by
  cases M.occasion h nofun nofun with
  | slot hplan _ hslot =>
    refine absurd (List.mem_of_getElem? (Option.join_eq_some_iff.mp hslot)) ?_
    exact (hrole _ (M.production ht hplan).1).2
  | opening hplan hopening => exact absurd hopening (hrole _ (M.production ht hplan).1).1
  | @closing _ p _ hplan hclosing hvisit hopening hbelow =>
    exact ⟨p, (M.production ht hplan).1, hplan, hclosing, hvisit, hopening, hbelow⟩

/-- When a node was closed, everything at and below it was visited. -/
theorem visited_of_closed {action : α} {id : Nat} (h : .act action id ∈ done)
    (hrole : m.grammar.OnlyCloses action) :
    ∀ x ∈ t.subtree id, .visit x ∈ done := by
  obtain ⟨before, after, rfl⟩ := List.append_of_mem h
  obtain ⟨p, -, -, -, hvisit, -, hbelow⟩ := M.of_closes ht (List.append_assoc ..) hrole
  intro x hx
  rw [Tree.subtree_eq M.rooted.toWellLinked (M.lt_size (List.mem_append_left _
    (List.mem_append_left _ hvisit)))] at hx
  refine List.mem_append_left _ ?_
  rcases List.mem_cons.mp hx with rfl | hx
  · exact hvisit
  · obtain ⟨c, hc, hx⟩ := List.mem_flatMap.mp hx
    exact M.visited (M.rooted.lt_child hc).2 (hbelow c hc) x hx

/-- An action runs at a node whose sign a production has for it. -/
theorem post {action : α} {id : Nat} (h : .act action id ∈ done ++ ahead) :
    ∃ p ∈ m.grammar.productions, ∃ s, t.sign? id = some s ∧ (action, s) ∈ p.posts := by
  obtain ⟨before, after, hcut⟩ := List.append_of_mem h
  cases M.occasion hcut nofun nofun with
  | slot hplan hchild hslot =>
    obtain ⟨s, hs, hsign⟩ := M.child_sign? hplan hchild
    exact ⟨_, (M.production ht hplan).1, s, hsign, Production.slot_mem_posts hslot hs⟩
  | opening hplan hopening =>
    obtain ⟨hp, hsign⟩ := M.production ht hplan
    exact ⟨_, hp, _, hsign, Production.opening_mem_posts hopening⟩
  | closing hplan hclosing =>
    obtain ⟨hp, hsign⟩ := M.production ht hplan
    exact ⟨_, hp, _, hsign, Production.closing_mem_posts hclosing⟩

end

end Moment

end Moment

end Machine

end PredictiveParsing
