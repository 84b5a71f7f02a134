import Mathlib.Tactic.Ring
import PredictiveParsing.Proofs.Grammar.Height
import PredictiveParsing.Proofs.Parse.Outline
import PredictiveParsing.Proofs.Table.Exact

/-!
# No lookahead is expanded for ever

With an exact table, a non-terminal that the lookahead `x` expands either can begin with `x` or
vanishes in front of it. In both cases the productions of one derivation are the ones that claim the
cells on the way, so the machine has to follow it: to the end of it when it vanishes
(`comes_of_vanishing`), and as far as `x` when it leads there (`comes_of_leading`). The
derivation can be taken of bounded height, which bounds the steps.

`halts_of_exact`: the steps that a run grants one lookahead are enough. Nothing is asked of the
slots of the productions, and nothing of the grammar but its table.
-/

namespace PredictiveParsing

variable {α : Type} {g : Grammar α} {t : Table}

namespace Outline

/-- Some steps lead from the signs `u` to the signs `v`, unless the run is rejected on the way. -/
def Comes (g : Grammar α) (t : Table) (current : Lookahead) (steps : Nat) (u v : List Sign) :
    Prop :=
  ∀ bound, advance g t current (steps + bound) u = advance g t current bound v ∨
    ∃ f, advance g t current (steps + bound) u = .ended (.rejected f)

variable {current : Lookahead}

theorem Comes.refl (u : List Sign) : Comes g t current 0 u u :=
  fun bound => .inl (by rw [Nat.zero_add])

theorem Comes.trans {j k : Nat} {u v w : List Sign} (h : Comes g t current j u v)
    (h' : Comes g t current k v w) : Comes g t current (j + k) u w := by
  intro bound
  rw [Nat.add_assoc]
  rcases h (k + bound) with he | he
  · rw [he]
    exact h' bound
  · exact .inr he

theorem comes_expand {x : Sign} (hx : current.sign = some x) {n i : Nat} (hi : t.get? n x = some i)
    {p : Production α} (hp : g.productions[i]? = some p) (u : List Sign) :
    Comes g t current 1 (.nonTerminal n :: u) (p.right ++ u) := by
  intro bound
  rw [Nat.add_comm, advance]
  by_cases hl : p.slots.length = p.right.length
  · simp [step, hx, hi, hp, hl]
  · simp [step, hx, hi, hp, hl]

/-- Each sign of a list is passed, so the list is. -/
theorem comes_of_forall {b : Nat} {u : List Sign}
    (h : ∀ s ∈ u, ∀ τ, ∃ j ≤ b, Comes g t current j (s :: τ) τ) (τ : List Sign) :
    ∃ j ≤ u.length * b, Comes g t current j (u ++ τ) τ := by
  induction u with
  | nil => exact ⟨0, Nat.zero_le _, .refl τ⟩
  | cons s u ih =>
    rw [List.forall_mem_cons] at h
    obtain ⟨j, hj, hs⟩ := h.1 (u ++ τ)
    obtain ⟨k, hk, hu⟩ := ih h.2
    refine ⟨j + k, ?_, hs.trans hu⟩
    rw [List.length_cons, Nat.succ_mul]
    omega

/-! ## Where the machine stops -/

/-- The machine stops within these steps, before or at the end of the current token. -/
def Halts (g : Grammar α) (t : Table) (current : Lookahead) (steps : Nat) (u : List Sign) : Prop :=
  ∀ bound, advance g t current (steps + bound) u ≠ .ended .endless

theorem Halts.mono {j k : Nat} {u : List Sign} (h : Halts g t current j u) (hjk : j ≤ k) :
    Halts g t current k u := by
  intro bound
  obtain ⟨i, rfl⟩ := Nat.exists_eq_add_of_le hjk
  rw [Nat.add_assoc]
  exact h _

theorem Comes.halts {j k : Nat} {u v : List Sign} (h : Comes g t current j u v)
    (hv : Halts g t current k v) : Halts g t current (j + k) u := by
  intro bound
  rw [Nat.add_assoc]
  rcases h (k + bound) with he | ⟨f, he⟩
  · rw [he]
    exact hv bound
  · rw [he]
    simp

theorem halts_nil : Halts g t current 1 [] := by
  intro bound
  simp [Nat.add_comm 1, advance, step]

theorem halts_empty {k : Nat} {τ : List Sign} (h : Halts g t current k τ) :
    Halts g t current (k + 1) (.empty :: τ) := by
  intro bound
  rw [Nat.add_right_comm, advance]
  exact h bound

theorem halts_terminal (i : Nat) (τ : List Sign) :
    Halts g t current 1 (.terminal i :: τ) := by
  intro bound
  rw [Nat.add_comm, advance]
  by_cases hx : current.sign = some (.terminal i) <;> by_cases hτ : τ = [] <;> simp [step, hx, hτ]

theorem halts_pound (τ : List Sign) : Halts g t current 1 (.pound :: τ) := by
  intro bound
  rw [Nat.add_comm, advance]
  by_cases hx : current.sign = some .pound <;> by_cases hτ : τ = [] <;> simp [step, hx, hτ]

theorem halts_of_empty_cell {n : Nat} (h : current.sign.bind (t.get? n) = none) (τ : List Sign) :
    Halts g t current 1 (.nonTerminal n :: τ) := by
  intro bound
  rw [Nat.add_comm, advance]
  simp [step, h]

/-! ## Steps along a derivation -/

/-- An expansion and as many shorter ways as there are children. -/
theorem one_add_mul_pow_le {l d : Nat} (h : l ≤ d) (k : Nat) :
    1 + l * (d + 1) ^ k ≤ (d + 1) ^ (k + 1) := by
  have hpos : 1 ≤ (d + 1) ^ k := Nat.one_le_pow _ _ (Nat.succ_pos d)
  have hle : l * (d + 1) ^ k ≤ d * (d + 1) ^ k := Nat.mul_le_mul_right _ h
  rw [Nat.pow_succ, Nat.mul_succ, Nat.mul_comm _ d]
  omega

theorem comes_of_vanishing (ht : t.Exact g) {d : Nat}
    (hd : ∀ p ∈ g.productions, p.right.length ≤ d) {x : Sign} (hx : current.sign = some x)
    {k n : Nat} (hn : level g.Vanishing k n) (hf : g.Follows n x) (τ : List Sign) :
    ∃ j ≤ (d + 1) ^ k, Comes g t current j (.nonTerminal n :: τ) τ := by
  induction k generalizing n τ with
  | zero => exact hn.elim
  | succ k ih =>
    obtain ⟨p, hp, rfl, hr⟩ := hn
    have hvanish : ∀ s ∈ p.right, g.Derives [s] [] := by
      intro s hs
      obtain ⟨m, rfl, hm⟩ := hr s hs
      exact Grammar.derives_of_vanishing hm
    obtain ⟨i, q, hi, hq, -, hqr⟩ :=
      ht.chosen p hp x (.inr ⟨Grammar.derives_nil_of_forall hvanish, hf⟩)
    have hbelow : ∀ s ∈ p.right, ∀ τ, ∃ j ≤ (d + 1) ^ k, Comes g t current j (s :: τ) τ := by
      intro s hs τ
      obtain ⟨m, rfl, hm⟩ := hr s hs
      obtain ⟨a, b, hab⟩ := List.append_of_mem hs
      have hb : g.Derives b [] :=
        Grammar.derives_nil_of_forall fun s hs => hvanish s (by simp [hab, hs])
      exact ih hm (Follow.follows_of_left hp hab hb hf) τ
    obtain ⟨j, hj, hrest⟩ := comes_of_forall hbelow τ
    refine ⟨1 + j, ?_, (comes_expand hx hi hq τ).trans (hqr ▸ hrest)⟩
    exact (Nat.add_le_add_left hj 1).trans (one_add_mul_pow_le (hd p hp) k)

theorem comes_of_leading (hg : g.Valid) (ht : t.Exact g) {d : Nat}
    (hd : ∀ p ∈ g.productions, p.right.length ≤ d) {i : Nat}
    (hx : current.sign = some (.terminal i)) {k n : Nat} (hn : level (g.Leading i) k n)
    (τ : List Sign) :
    ∃ j ≤ k * (d + 1) ^ (g.nonTerminals.length + 1), ∃ τ',
      Comes g t current j (.nonTerminal n :: τ) (.terminal i :: τ') := by
  induction k generalizing n τ with
  | zero => exact hn.elim
  | succ k ih =>
    have hleads : g.Leads [.nonTerminal n] (.terminal i) := Grammar.leads_of_leading hn
    obtain ⟨p, hp, rfl, a, s, b, hr, ha, hs⟩ := hn
    have hsign : g.Leads [s] (.terminal i) := Grammar.leads_of_terminal_or_leading hs
    have hbegins : g.Begins p.right (.terminal i) := hr ▸ hsign.behind ha
    obtain ⟨_, q, hi, hq, -, hqr⟩ := ht.chosen p hp _ (.inl ⟨hbegins, by simp⟩)
    have hbefore : ∀ s ∈ a, ∀ τ, ∃ j ≤ (d + 1) ^ g.nonTerminals.length,
        Comes g t current j (s :: τ) τ := by
      intro s' hs' τ
      obtain ⟨m, rfl, hm⟩ := Grammar.vanishes_bounded hg ha s' hs'
      obtain ⟨a', b', rfl⟩ := List.append_of_mem hs'
      have hb' : g.Derives b' [] := (Grammar.Derives.vanishes_append (u := [_]).mp
        (Grammar.Derives.vanishes_append.mp ha).2).2
      have hrest : g.Begins (b' ++ s :: b) (.terminal i) := hsign.behind hb'
      have hsplit : p.right = a' ++ .nonTerminal m :: (b' ++ s :: b) := by
        rw [hr, List.append_assoc, List.cons_append]
      exact comes_of_vanishing ht hd hx hm (Follow.follows_of_begins hp hsplit hrest (by simp)) τ
    obtain ⟨j, hj, hpast⟩ := comes_of_forall hbefore (s :: b ++ τ)
    have hsteps : 1 + j ≤ (d + 1) ^ (g.nonTerminals.length + 1) := by
      have hle : a.length ≤ d := by
        have hlength := hd p hp
        rw [hr, List.length_append] at hlength
        omega
      exact (Nat.add_le_add_left hj 1).trans (one_add_mul_pow_le hle _)
    have hfirst : Comes g t current (1 + j) (.nonTerminal p.left :: τ) (s :: (b ++ τ)) := by
      refine (comes_expand hx hi hq τ).trans ?_
      rw [hqr, hr, List.append_assoc]
      exact hpast
    rcases hs with rfl | ⟨m, rfl, hm⟩
    · refine ⟨1 + j, ?_, b ++ τ, hfirst⟩
      rw [Nat.succ_mul]
      omega
    · obtain ⟨j', hj', τ', hrest⟩ := ih hm (b ++ τ)
      refine ⟨1 + j + j', ?_, τ', hfirst.trans hrest⟩
      rw [Nat.succ_mul]
      omega

/-! ## The steps for one lookahead -/

theorem length_le_longest {p : Production α} (hp : p ∈ g.productions) :
    p.right.length ≤ Machine.longest g := by
  have hmem := List.mem_map_of_mem (f := fun p => p.right.length) hp
  rw [Machine.longest, List.foldl_max]
  exact (List.le_max?_getD_of_mem hmem).trans (Nat.le_max_right _ _)

theorem mul_pow_le (a n : Nat) : n * a ^ n ≤ a * (a + 1) ^ n := by
  induction n with
  | zero => simp
  | succ n ih =>
    have hle : a ^ n ≤ (a + 1) ^ n := Nat.pow_le_pow_left (Nat.le_succ a) n
    calc (n + 1) * a ^ (n + 1) = a * (n * a ^ n + a ^ n) := by ring
      _ ≤ a * (a * (a + 1) ^ n + (a + 1) ^ n) := Nat.mul_le_mul_left _ (Nat.add_le_add ih hle)
      _ = a * (a + 1) ^ (n + 1) := by ring

/-- The steps granted a sign suffice for a way to the lookahead or to the end of the sign. -/
theorem steps_le_patience (d n : Nat) :
    n * (d + 1) ^ (n + 1) < (d + 2) ^ (n + 4) ∧ (d + 1) ^ n ≤ (d + 2) ^ (n + 4) := by
  have hpos : 0 < (d + 2) ^ (n + 2) := Nat.pow_pos (Nat.succ_pos _)
  have hlead : n * (d + 1) ^ (n + 1) ≤ (d + 2) ^ (n + 2) := by
    calc n * (d + 1) ^ (n + 1) = (d + 1) * (n * (d + 1) ^ n) := by ring
      _ ≤ (d + 2) * ((d + 2) * (d + 2) ^ n) :=
        Nat.mul_le_mul (Nat.le_succ _) ((mul_pow_le (d + 1) n).trans
          (Nat.mul_le_mul_right _ (Nat.le_succ _)))
      _ = (d + 2) ^ (n + 2) := by ring
  have hmore : (d + 2) ^ (n + 2) < (d + 2) ^ (n + 4) :=
    Nat.pow_lt_pow_right (by omega) (by omega)
  refine ⟨hlead.trans_lt hmore, (Nat.pow_le_pow_left (Nat.le_succ _) n).trans ?_⟩
  exact Nat.pow_le_pow_right (by omega) (by omega)

/-- Under an exact table a non-terminal is passed, or the machine comes to the lookahead below it. -/
theorem comes_or_halts (hg : g.Valid) (ht : t.Exact g) {d : Nat}
    (hd : ∀ p ∈ g.productions, p.right.length ≤ d) (n : Nat) (τ : List Sign) :
    (∃ j ≤ (d + 1) ^ g.nonTerminals.length, Comes g t current j (.nonTerminal n :: τ) τ) ∨
      ∃ j ≤ g.nonTerminals.length * (d + 1) ^ (g.nonTerminals.length + 1) + 1,
        Halts g t current j (.nonTerminal n :: τ) := by
  cases hi : current.sign.bind (t.get? n) with
  | none => exact .inr ⟨1, Nat.le_add_left _ _, halts_of_empty_cell hi τ⟩
  | some i =>
    obtain ⟨x, hx, hi⟩ := Option.bind_eq_some_iff.mp hi
    obtain ⟨p, hpi, rfl, hclaims⟩ := ht.claimed n x i hi
    have hexpand := Grammar.Derives.of_production (List.mem_of_getElem? hpi)
    rcases hclaims with ⟨hbegins, hne⟩ | ⟨hnil, hf⟩
    · cases x with
      | terminal i =>
        have hl := Grammar.leads_bounded hg (Grammar.Leads.of_derives hexpand hbegins)
        obtain ⟨j, hj, τ', hcomes⟩ := comes_of_leading hg ht hd hx hl τ
        exact .inr ⟨j + 1, Nat.succ_le_succ hj, hcomes.halts (halts_terminal i τ')⟩
      | empty => exact absurd rfl hne
      | nonTerminal => exact hbegins.elim
      | pound => exact hbegins.elim
    · obtain ⟨m, hm, hl⟩ := Grammar.vanishes_bounded hg (hexpand.trans hnil) _ List.mem_cons_self
      cases hm
      exact .inl (comes_of_vanishing ht hd hx hl hf τ)

theorem halts_of_exact (hg : g.Valid) (ht : t.Exact g) (current : Lookahead) {patience : Nat}
    (hp : patience = (Machine.longest g + 2) ^ (g.nonTerminals.length + 4)) (u : List Sign) :
    Halts g t current (u.length * patience + 1) u := by
  obtain ⟨hlead, hvanish⟩ := steps_le_patience (Machine.longest g) g.nonTerminals.length
  rw [← hp] at hlead hvanish
  induction u with
  | nil => exact halts_nil.mono (Nat.le_add_left _ _)
  | cons s τ ih =>
    rw [List.length_cons, Nat.succ_mul]
    cases s with
    | empty => exact (halts_empty ih).mono (by omega)
    | terminal i => exact (halts_terminal i τ).mono (by omega)
    | pound => exact (halts_pound τ).mono (by omega)
    | nonTerminal n =>
      rcases comes_or_halts hg ht (fun _ hp => length_le_longest hp) n τ with
        ⟨j, hj, hcomes⟩ | ⟨j, hj, hhalts⟩
      · exact (hcomes.halts ih).mono (by omega)
      · exact hhalts.mono (by omega)

end Outline

end PredictiveParsing
