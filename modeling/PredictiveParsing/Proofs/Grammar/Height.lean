import Mathlib.Data.Finset.Card
import Mathlib.Order.Monotone.Basic
import PredictiveParsing.Proofs.Grammar.Valid

/-!
# Heights of derivations

A non-terminal that can vanish does so by a tree that is at most as high as there are non-terminals,
and the way down to a terminal that it can begin with need not be longer either. Both are instances
of one fact about levels, which grow from nothing by a monotone rule and cannot grow more often than
there are numbers to take in (`level_bounded`).

* `vanishes_bounded`: what vanishes vanishes at level `nonTerminals.length`;
* `leads_bounded`: the same for the non-terminals that lead to a terminal.
-/

namespace PredictiveParsing

/-! ## Levels -/

/-- What a rule gives when it is applied to nothing, `k` times. -/
def level (rule : (Nat → Prop) → Nat → Prop) : Nat → Nat → Prop
  | 0 => fun _ => False
  | k + 1 => rule (level rule k)

theorem level_mono {rule : (Nat → Prop) → Nat → Prop} (hmono : Monotone rule) :
    Monotone (level rule) := by
  refine monotone_nat_of_le_succ fun k => ?_
  induction k with
  | zero => exact fun _ h => h.elim
  | succ k ih => exact hmono ih

/-- A rule that concerns numbers below `bound` only gives nothing new after `bound` times. -/
theorem level_bounded {rule : (Nat → Prop) → Nat → Prop} (hmono : Monotone rule) {bound : Nat}
    (hlt : ∀ P n, rule P n → n < bound) {k n : Nat} (h : level rule k n) : level rule bound n := by
  classical
  let members (k : Nat) : Finset Nat := (Finset.range bound).filter (level rule k)
  have hmem (k n : Nat) : n ∈ members k ↔ level rule k n := by
    simp only [members, Finset.mem_filter, Finset.mem_range, and_iff_right_iff_imp]
    cases k with
    | zero => exact fun h => h.elim
    | succ k => exact hlt _ n
  have hsubset {j k : Nat} (hjk : j ≤ k) : members j ⊆ members k := fun n hn =>
    (hmem k n).mpr (level_mono hmono hjk n ((hmem j n).mp hn))
  have hcard : ∀ k, (members k).card ≤ bound := fun k =>
    (Finset.card_filter_le ..).trans_eq (Finset.card_range bound)
  have hstable : ∀ k, (members k).card = (members (k + 1)).card →
      (members (k + 1)).card = (members (k + 2)).card := by
    intro k hk
    have hsame := Finset.eq_of_subset_of_card_le (hsubset (Nat.le_succ k)) hk.ge
    have hlevel : level rule k = level rule (k + 1) := by
      funext n
      exact propext (by rw [← hmem, ← hmem, hsame])
    refine congrArg Finset.card (Finset.ext fun n => ?_)
    rw [hmem, hmem]
    exact iff_of_eq (congrFun (congrArg rule hlevel) n)
  rcases Nat.le_total k bound with hk | hk
  · exact level_mono hmono hk n h
  · have heq := Nat.stabilises_of_monotone (fun _ _ hjk => Finset.card_le_card (hsubset hjk))
      hcard hstable hk
    have hsame := Finset.eq_of_subset_of_card_le (hsubset hk) heq.le
    rw [← hmem, hsame, hmem]
    exact h

namespace Grammar

variable {α : Type} {g : Grammar α}

/-! ## Vanishing -/

def Vanishing (g : Grammar α) (P : Nat → Prop) (n : Nat) : Prop :=
  ∃ p ∈ g.productions, p.left = n ∧ ∀ s ∈ p.right, ∃ m, s = .nonTerminal m ∧ P m

theorem vanishing_mono (g : Grammar α) : Monotone g.Vanishing := by
  rintro P Q hPQ n ⟨p, hp, hn, hr⟩
  exact ⟨p, hp, hn, fun s hs => (hr s hs).imp fun m h => ⟨h.1, hPQ m h.2⟩⟩

theorem derives_nil_of_forall {u : List Sign} (h : ∀ s ∈ u, g.Derives [s] []) :
    g.Derives u [] := by
  induction u with
  | nil => exact .refl []
  | cons s u ih =>
    rw [List.forall_mem_cons] at h
    exact h.1.append (ih h.2)

theorem derives_of_vanishing {k n : Nat} (h : level g.Vanishing k n) :
    g.Derives [.nonTerminal n] [] := by
  induction k generalizing n with
  | zero => exact h.elim
  | succ k ih =>
    obtain ⟨p, hp, rfl, hr⟩ := h
    refine (Derives.of_production hp).trans (derives_nil_of_forall fun s hs => ?_)
    obtain ⟨m, rfl, hm⟩ := hr s hs
    exact ih hm

theorem Unfolds.vanishing {u v : List Sign} (h : g.Unfolds u v) (hv : v = []) :
    ∃ k, ∀ s ∈ u, ∃ m, s = .nonTerminal m ∧ level g.Vanishing k m := by
  induction h with
  | nil => exact ⟨0, by simp⟩
  | keep => cases hv
  | expand hp below rest ihb ihr =>
    obtain ⟨hx, hv⟩ := List.append_eq_nil_iff.mp hv
    obtain ⟨j, hj⟩ := ihb hx
    obtain ⟨k, hk⟩ := ihr hv
    have hmono := level_mono g.vanishing_mono
    refine ⟨max (j + 1) k, List.forall_mem_cons.mpr ⟨⟨_, rfl, ?_⟩, fun s hs => ?_⟩⟩
    · exact hmono (Nat.le_max_left (j + 1) k) _ ⟨_, hp, rfl, hj⟩
    · exact (hk s hs).imp fun m h => ⟨h.1, hmono (Nat.le_max_right (j + 1) k) m h.2⟩

theorem vanishes_bounded (hg : g.Valid) {u : List Sign} (h : g.Derives u []) :
    ∀ s ∈ u, ∃ m, s = .nonTerminal m ∧ level g.Vanishing g.nonTerminals.length m := by
  obtain ⟨k, hk⟩ := (derives_iff_unfolds.mp h).vanishing rfl
  refine fun s hs => (hk s hs).imp fun m hm => ⟨hm.1, level_bounded g.vanishing_mono ?_ hm.2⟩
  rintro P n ⟨p, hp, rfl, -⟩
  exact hg.left_lt p hp

/-! ## Leading -/

/-- Some right side comes to `t`, or to a non-terminal in `P`, behind signs that can vanish. -/
def Leading (g : Grammar α) (t : Nat) (P : Nat → Prop) (n : Nat) : Prop :=
  ∃ p ∈ g.productions, p.left = n ∧ ∃ a s b, p.right = a ++ s :: b ∧ g.Derives a [] ∧
    (s = .terminal t ∨ ∃ m, s = .nonTerminal m ∧ P m)

theorem leading_mono (g : Grammar α) (t : Nat) : Monotone (g.Leading t) := by
  rintro P Q hPQ n ⟨p, hp, hn, a, s, b, hr, ha, hs⟩
  exact ⟨p, hp, hn, a, s, b, hr, ha, hs.imp_right fun ⟨m, h⟩ => ⟨m, h.1, hPQ m h.2⟩⟩

theorem leads_of_leading {t k n : Nat} (h : level (g.Leading t) k n) :
    g.Leads [.nonTerminal n] (.terminal t) := by
  induction k generalizing n with
  | zero => exact h.elim
  | succ k ih =>
    obtain ⟨p, hp, rfl, a, s, b, hr, ha, hs⟩ := h
    refine Leads.of_derives (hr ▸ Derives.of_production hp) (Leads.behind ?_ ha)
    rcases hs with rfl | ⟨m, rfl, hm⟩
    · exact ⟨[], .refl _⟩
    · exact ih hm

/-- The sign that a right side comes to leads to the terminal. -/
theorem leads_of_terminal_or_leading {t k : Nat} {s : Sign}
    (hs : s = .terminal t ∨ ∃ m, s = .nonTerminal m ∧ level (g.Leading t) k m) :
    g.Leads [s] (.terminal t) := by
  rcases hs with rfl | ⟨m, rfl, hm⟩
  · exact ⟨[], .refl _⟩
  · exact leads_of_leading hm

theorem Unfolds.leading {u v : List Sign} (h : g.Unfolds u v) {t : Nat} {w : List Sign}
    (hv : v = .terminal t :: w) : ∃ k a s b, u = a ++ s :: b ∧ g.Derives a [] ∧
      (s = .terminal t ∨ ∃ m, s = .nonTerminal m ∧ level (g.Leading t) k m) := by
  induction h generalizing w with
  | nil => cases hv
  | keep s _ _ =>
    obtain ⟨rfl, -⟩ := List.cons.inj hv
    exact ⟨0, [], .terminal t, _, rfl, .refl [], .inl rfl⟩
  | @expand p hp x u v below rest ihb ihr =>
    cases x with
    | nil =>
      obtain ⟨k, a, s, b, rfl, ha, hs⟩ := ihr hv
      have hp' := (Derives.of_production hp).trans (derives_iff_unfolds.mpr below)
      exact ⟨k, .nonTerminal p.left :: a, s, b, rfl, hp'.append ha, hs⟩
    | cons t' x =>
      obtain ⟨rfl, -⟩ := List.cons.inj hv
      obtain ⟨k, a, s, b, hr, ha, hs⟩ := ihb rfl
      exact ⟨k + 1, [], .nonTerminal p.left, u, rfl, .refl [],
        .inr ⟨p.left, rfl, p, hp, rfl, a, s, b, hr, ha, hs⟩⟩

theorem leads_bounded (hg : g.Valid) {t n : Nat} (h : g.Leads [.nonTerminal n] (.terminal t)) :
    level (g.Leading t) g.nonTerminals.length n := by
  obtain ⟨w, hw⟩ := h
  obtain ⟨k, a, s, b, hu, -, hs⟩ := (derives_iff_unfolds.mp hw).leading rfl
  obtain ⟨rfl, rfl, -⟩ : a = [] ∧ s = .nonTerminal n ∧ b = [] := by
    cases a with
    | nil => simpa [eq_comm] using hu
    | cons s' a => simp at hu
  rcases hs with hs | ⟨m, hm, hl⟩
  · cases hs
  · cases hm
    refine level_bounded (g.leading_mono t) ?_ hl
    rintro P n ⟨p, hp, rfl, -⟩
    exact hg.left_lt p hp

end Grammar

end PredictiveParsing
