import Mathlib.Logic.Relation
import PredictiveParsing.Grammar.Basic

/-!
# Derivations

`Produces` replaces one non-terminal by the right side of one of its productions, `Derives` is any
number of such replacements. Proofs read a derivation from left to right instead (`Unfolds`), where
each sign either stays or is replaced and what replaced it is unfolded further:

* `derives_iff_unfolds`: both say the same;
* `Derives.split`, `Derives.append`: a derivation from `u ++ v` is one from `u` beside one from `v`;
* `Derives.vanishes_append`, `Derives.leads_append`: when a joined list can vanish, and which sign
  it can begin with.
-/

namespace PredictiveParsing

/-- Signs that are all terminals. -/
def IsWord (u : List Sign) : Prop := ∀ s ∈ u, s.isTerminal = true

instance (u : List Sign) : Decidable (IsWord u) := inferInstanceAs (Decidable (∀ s ∈ u, _))

/-- An element of two lists together is one of the first list or one of the second. -/
theorem append_eq_middle {β : Type} {l l' before after : List β} {b : β}
    (h : l ++ l' = before ++ b :: after) :
    (∃ rest, l = before ++ b :: rest ∧ after = rest ++ l') ∨
      ∃ rest, before = l ++ rest ∧ l' = rest ++ b :: after := by
  rcases List.append_eq_append_iff.mp h with ⟨rest, hbefore, hl'⟩ | ⟨rest, hl, hrest⟩
  · exact .inr ⟨rest, hbefore, hl'⟩
  · cases rest with
    | nil => exact .inr ⟨[], by simpa using hl.symm, hrest.symm⟩
    | cons b' rest =>
      obtain ⟨rfl, hafter⟩ := List.cons.inj hrest
      exact .inl ⟨rest, hl, hafter⟩

namespace Grammar

variable {α : Type} {g : Grammar α}

inductive Produces (g : Grammar α) : List Sign → List Sign → Prop
  | replace {p : Production α} (h : p ∈ g.productions) (before after : List Sign) :
      Produces g (before ++ .nonTerminal p.left :: after) (before ++ (p.right ++ after))

def Derives (g : Grammar α) : List Sign → List Sign → Prop := Relation.ReflTransGen g.Produces

inductive Unfolds (g : Grammar α) : List Sign → List Sign → Prop
  | nil : Unfolds g [] []
  | keep (s : Sign) {u v : List Sign} (h : Unfolds g u v) : Unfolds g (s :: u) (s :: v)
  | expand {p : Production α} (hp : p ∈ g.productions) {x u v : List Sign}
      (below : Unfolds g p.right x) (rest : Unfolds g u v) :
      Unfolds g (.nonTerminal p.left :: u) (x ++ v)

/-! ## Unfolding -/

theorem Unfolds.refl (u : List Sign) : g.Unfolds u u := by
  induction u with
  | nil => exact .nil
  | cons s u ih => exact .keep s ih

theorem Unfolds.append {u v x y : List Sign} (h : g.Unfolds u x) (h' : g.Unfolds v y) :
    g.Unfolds (u ++ v) (x ++ y) := by
  induction h with
  | nil => exact h'
  | keep s _ ih => exact .keep s ih
  | expand hp below _ _ ih => rw [List.append_assoc]; exact .expand hp below ih

theorem Unfolds.split {u v w : List Sign} (h : g.Unfolds (u ++ v) w) :
    ∃ x y, w = x ++ y ∧ g.Unfolds u x ∧ g.Unfolds v y := by
  induction u generalizing w with
  | nil => exact ⟨[], w, rfl, .nil, h⟩
  | cons s u ih =>
    cases h with
    | keep _ h =>
      obtain ⟨x, y, rfl, hx, hy⟩ := ih h
      exact ⟨s :: x, y, rfl, .keep s hx, hy⟩
    | expand hp below rest =>
      obtain ⟨x, y, rfl, hx, hy⟩ := ih rest
      exact ⟨_ ++ x, y, (List.append_assoc ..).symm, .expand hp below hx, hy⟩

theorem Unfolds.of_produces {u v w : List Sign} (h : g.Produces u v) (h' : g.Unfolds v w) :
    g.Unfolds u w := by
  cases h with
  | replace hp before after =>
    obtain ⟨x, y, rfl, hx, hy⟩ := h'.split
    obtain ⟨y, z, rfl, hy, hz⟩ := hy.split
    exact hx.append (.expand hp hy hz)

/-! ## Deriving -/

theorem Derives.refl (u : List Sign) : g.Derives u u := Relation.ReflTransGen.refl

theorem Derives.trans {u v w : List Sign} (h : g.Derives u v) (h' : g.Derives v w) :
    g.Derives u w := Relation.ReflTransGen.trans h h'

theorem Produces.append_left {u v : List Sign} (x : List Sign) (h : g.Produces u v) :
    g.Produces (x ++ u) (x ++ v) := by
  cases h with
  | replace hp before after =>
    rw [← List.append_assoc, ← List.append_assoc x before]
    exact .replace hp (x ++ before) after

theorem Produces.append_right {u v : List Sign} (y : List Sign) (h : g.Produces u v) :
    g.Produces (u ++ y) (v ++ y) := by
  cases h with
  | replace hp before after =>
    simpa only [List.append_assoc, List.cons_append] using Produces.replace hp before (after ++ y)

theorem Derives.append_left {u v : List Sign} (x : List Sign) (h : g.Derives u v) :
    g.Derives (x ++ u) (x ++ v) := h.lift (x ++ ·) fun _ _ hp => hp.append_left x

theorem Derives.append_right {u v : List Sign} (y : List Sign) (h : g.Derives u v) :
    g.Derives (u ++ y) (v ++ y) := h.lift (· ++ y) fun _ _ hp => hp.append_right y

theorem Derives.append {u v x y : List Sign} (h : g.Derives u x) (h' : g.Derives v y) :
    g.Derives (u ++ v) (x ++ y) := (h.append_right v).trans (h'.append_left x)

theorem Derives.of_production {p : Production α} (h : p ∈ g.productions) :
    g.Derives [.nonTerminal p.left] p.right := by
  have hp : g.Produces [.nonTerminal p.left] p.right := by simpa using Produces.replace h [] []
  exact Relation.ReflTransGen.single hp

theorem derives_iff_unfolds {u v : List Sign} : g.Derives u v ↔ g.Unfolds u v := by
  constructor
  · intro h
    induction h using Relation.ReflTransGen.head_induction_on with
    | refl => exact .refl v
    | head hp _ ih => exact .of_produces hp ih
  · intro h
    induction h with
    | nil => exact .refl []
    | keep s _ ih => exact ih.append_left [s]
    | expand hp _ _ ihb ihr => exact ((Derives.of_production hp).trans ihb).append ihr

theorem Derives.split {u v w : List Sign} (h : g.Derives (u ++ v) w) :
    ∃ x y, w = x ++ y ∧ g.Derives u x ∧ g.Derives v y := by
  simp only [derives_iff_unfolds] at *
  exact h.split

theorem derives_nil_iff {w : List Sign} : g.Derives [] w ↔ w = [] := by
  constructor
  · intro h
    cases derives_iff_unfolds.mp h
    rfl
  · rintro rfl
    exact .refl []

/-- The first sign of a sentential form stays or is replaced by a production. -/
theorem derives_cons_iff {s : Sign} {u w : List Sign} :
    g.Derives (s :: u) w ↔
      (∃ v, w = s :: v ∧ g.Derives u v) ∨
      ∃ p ∈ g.productions, s = .nonTerminal p.left ∧ g.Derives (p.right ++ u) w := by
  constructor
  · rw [derives_iff_unfolds]
    intro h
    cases h with
    | keep _ h => exact .inl ⟨_, rfl, derives_iff_unfolds.mpr h⟩
    | expand hp below rest =>
      exact .inr ⟨_, hp, rfl, derives_iff_unfolds.mpr (below.append rest)⟩
  · rintro (⟨v, rfl, h⟩ | ⟨p, hp, rfl, h⟩)
    · exact h.append_left [s]
    · exact ((Derives.of_production hp).append_right u).trans h

/-- A list of terminals derives nothing but itself. -/
theorem Derives.eq_of_isWord {u v : List Sign} (h : g.Derives u v) (hu : IsWord u) : v = u := by
  induction u generalizing v with
  | nil => exact derives_nil_iff.mp h
  | cons s u ih =>
    obtain ⟨hs, hu⟩ := List.forall_mem_cons.mp hu
    rcases derives_cons_iff.mp h with ⟨w, rfl, hw⟩ | ⟨p, -, rfl, -⟩
    · rw [ih hw hu]
    · cases hs

/-- A list can vanish when both its parts can. -/
theorem Derives.vanishes_append {u v : List Sign} :
    g.Derives (u ++ v) [] ↔ g.Derives u [] ∧ g.Derives v [] := by
  constructor
  · intro h
    obtain ⟨x, y, hxy, hx, hy⟩ := h.split
    obtain ⟨rfl, rfl⟩ := List.append_eq_nil_iff.mp hxy.symm
    exact ⟨hx, hy⟩
  · rintro ⟨hu, hv⟩
    exact hu.append hv

/-! ## Beginnings -/

/-- A sentential form that begins with `s` can be derived. -/
def Leads (g : Grammar α) (u : List Sign) (s : Sign) : Prop := ∃ v, g.Derives u (s :: v)

/-- The beginning comes from the first part, or from the second when the first can vanish. -/
theorem leads_append {u v : List Sign} {s : Sign} :
    g.Leads (u ++ v) s ↔ g.Leads u s ∨ g.Derives u [] ∧ g.Leads v s := by
  constructor
  · rintro ⟨w, h⟩
    obtain ⟨x, y, hw, hx, hy⟩ := h.split
    cases x with
    | nil => exact .inr ⟨hx, w, hw ▸ hy⟩
    | cons t x =>
      obtain ⟨rfl, -⟩ := List.cons.inj hw
      exact .inl ⟨x, hx⟩
  · rintro (⟨w, h⟩ | ⟨hu, w, h⟩)
    · exact ⟨w ++ v, h.append_right v⟩
    · exact ⟨w, hu.append h⟩

theorem Leads.of_derives {u v : List Sign} {s : Sign} (h : g.Derives u v) (hv : g.Leads v s) :
    g.Leads u s := ⟨hv.choose, h.trans hv.choose_spec⟩

/-- What stands behind signs that can vanish leads to what it leads to alone. -/
theorem Leads.behind {a b : List Sign} {s x : Sign} (h : g.Leads [s] x) (ha : g.Derives a []) :
    g.Leads (a ++ s :: b) x := by
  refine leads_append.mpr (.inr ⟨ha, ?_⟩)
  exact (leads_append (u := [s])).mpr (.inl h)

end Grammar

end PredictiveParsing
