import PredictiveParsing.Proofs.Parse.Halting
import PredictiveParsing.Proofs.Parse.Walk
import PredictiveParsing.Proofs.Table.Fitting

/-!
# How long one lookahead can take

A table that was not compiled may choose any production of a non-terminal at any lookahead, those
that vanish too. While the lookahead stays, a non-terminal is passed, and then it vanishes by the
productions the table has for it (`Outline.Passes`), or the machine stops below it, or never stops.
A level says how deep the non-terminals are nested that the machine can come to below one
(`Outline.Below`). It bounds the steps (`passes_or_halts`), and there are not more levels than
non-terminals.

* `advance_ne_endless_of_stops`: a machine that stops at all stops within the steps that a run
  grants;
* `run_ends_of_ranked`: a run ends whatever the table chooses, when no non-terminal comes back to
  itself behind signs that can vanish, which a rank for the non-terminals shows (`Grammar.Ranked`).
-/

namespace PredictiveParsing

variable {α : Type} {g : Grammar α} {t : Table}

/-- The rank goes down from a left side to each non-terminal of a right side that only signs stand
before that can vanish. -/
structure Grammar.Ranked (g : Grammar α) (rank : Nat → Nat) : Prop where
  bounded : ∀ n, rank n < g.nonTerminals.length
  lower : ∀ p ∈ g.productions, ∀ a m b, p.right = a ++ .nonTerminal m :: b → g.Derives a [] →
    rank m < rank p.left

/-- The non-terminals of a right side up to the first that is not among the given ones. -/
def leftCalled (vanishing : List Nat) : List Sign → List Nat
  | .nonTerminal m :: u => m :: if m ∈ vanishing then leftCalled vanishing u else []
  | _ => []

theorem mem_leftCalled {vanishing : List Nat} {a b : List Sign} {m : Nat}
    (ha : ∀ s ∈ a, ∃ n ∈ vanishing, s = .nonTerminal n) :
    m ∈ leftCalled vanishing (a ++ .nonTerminal m :: b) := by
  induction a with
  | nil => simp [leftCalled]
  | cons s a ih =>
    obtain ⟨⟨n, hn, rfl⟩, hrest⟩ := List.forall_mem_cons.mp ha
    simp [leftCalled, hn, ih hrest]

/-- What vanishes is in every list that has a left side when it has all of the right side. -/
theorem Grammar.mem_of_derives_nil {vanishing : List Nat}
    (hclosed : ∀ p ∈ g.productions, (∀ s ∈ p.right, ∃ n ∈ vanishing, s = .nonTerminal n) →
      p.left ∈ vanishing) {u : List Sign} (hu : g.Derives u []) :
    ∀ s ∈ u, ∃ n ∈ vanishing, s = .nonTerminal n := by
  have hlevel : ∀ k n, level g.Vanishing k n → n ∈ vanishing := by
    intro k
    induction k with
    | zero => exact fun _ h => h.elim
    | succ k ih =>
      rintro n ⟨p, hp, rfl, hr⟩
      refine hclosed p hp fun s hs => ?_
      obtain ⟨m, rfl, hm⟩ := hr s hs
      exact ⟨m, ih m hm, rfl⟩
  obtain ⟨k, hk⟩ := (derives_iff_unfolds.mp hu).vanishing rfl
  intro s hs
  obtain ⟨m, rfl, hm⟩ := hk s hs
  exact ⟨m, hlevel k m hm, rfl⟩

theorem Grammar.ranked_of_closed {rank : Nat → Nat} (vanishing : List Nat)
    (hbounded : ∀ n, rank n < g.nonTerminals.length)
    (hclosed : ∀ p ∈ g.productions, (∀ s ∈ p.right, ∃ n ∈ vanishing, s = .nonTerminal n) →
      p.left ∈ vanishing)
    (hlower : ∀ p ∈ g.productions, ∀ m ∈ leftCalled vanishing p.right, rank m < rank p.left) :
    g.Ranked rank where
  bounded := hbounded
  lower p hp a m b hr ha := by
    refine hlower p hp m ?_
    rw [hr]
    exact mem_leftCalled (mem_of_derives_nil hclosed ha)

namespace Outline

variable {current : Lookahead}

/-! ## Passing -/

/-- The signs are non-terminals that vanish by the productions the table has for the lookahead. -/
inductive Passes (g : Grammar α) (t : Table) (current : Lookahead) : List Sign → Prop
  | nil : Passes g t current []
  | expand {n i : Nat} {p : Production α} {u : List Sign}
      (hi : current.sign.bind (t.get? n) = some i) (hp : g.productions[i]? = some p)
      (hslots : p.slots.length = p.right.length) (hright : Passes g t current p.right)
      (hrest : Passes g t current u) : Passes g t current (.nonTerminal n :: u)

theorem Passes.append {u v : List Sign} (h : Passes g t current u) (h' : Passes g t current v) :
    Passes g t current (u ++ v) := by
  induction h with
  | nil => exact h'
  | expand hi hp hslots hright _ _ ih => exact .expand hi hp hslots hright ih

theorem Passes.derives (ht : t.Fits g) {u : List Sign} (h : Passes g t current u) :
    g.Derives u [] := by
  induction h with
  | nil => exact .refl []
  | expand hi hp _ _ _ ihr ihu =>
    obtain ⟨x, -, hi⟩ := Option.bind_eq_some_iff.mp hi
    obtain ⟨q, hq, hleft⟩ := ht.chosen _ x _ hi
    rw [hp] at hq
    cases hq
    have hfirst := Grammar.Derives.of_production (List.mem_of_getElem? hp)
    rw [hleft] at hfirst
    exact (hfirst.trans ihr).append ihu

/-- Enough steps lead past the signs to what is behind them. -/
theorem Passes.exists_advance {u : List Sign} (h : Passes g t current u) :
    ∃ j, ∀ bound τ, advance g t current (j + bound) (u ++ τ) = advance g t current bound τ := by
  induction h with
  | nil => exact ⟨0, fun bound τ => by rw [Nat.zero_add, List.nil_append]⟩
  | @expand n i p u hi hp hslots _ _ ihr ihu =>
    obtain ⟨j, hj⟩ := ihr
    obtain ⟨k, hk⟩ := ihu
    refine ⟨j + k + 1, fun bound τ => ?_⟩
    have hsteps : j + k + 1 + bound = (j + (k + bound)) + 1 := by omega
    rw [hsteps, List.cons_append, advance]
    simp only [step, hi, hp, if_pos hslots]
    rw [hj, hk]

theorem advance_add {k : Nat} {u : List Sign} (h : advance g t current k u ≠ .ended .endless)
    (more : Nat) : advance g t current (k + more) u = advance g t current k u := by
  induction k generalizing u with
  | zero => exact absurd rfl h
  | succ k ih =>
    rw [Nat.succ_add, advance, advance]
    rw [advance] at h
    revert h
    cases step g t current u with
    | moved u => exact ih
    | taken => exact fun _ => rfl
    | ended => exact fun _ => rfl

/-- A machine that stops, stops when the signs are passed. -/
theorem Passes.stops {u : List Sign} (h : Passes g t current u) {k : Nat} {τ : List Sign}
    (hk : advance g t current k (u ++ τ) ≠ .ended .endless) :
    advance g t current k τ ≠ .ended .endless := by
  obtain ⟨j, hj⟩ := h.exists_advance
  rw [← hj k τ, Nat.add_comm, advance_add hk]
  exact hk

/-! ## Levels of non-terminals -/

/-- The non-terminals that the machine can come to below `n` are among the given ones. -/
def Below (g : Grammar α) (t : Table) (current : Lookahead) (P : Nat → Prop) (n : Nat) : Prop :=
  n < g.nonTerminals.length ∧ ∀ i p, current.sign.bind (t.get? n) = some i →
    g.productions[i]? = some p → p.slots.length = p.right.length →
      ∀ a m b, p.right = a ++ .nonTerminal m :: b → Passes g t current a → P m

theorem below_mono (g : Grammar α) (t : Table) (current : Lookahead) :
    Monotone (Below g t current) :=
  fun _ _ hPQ _ ⟨hn, h⟩ => ⟨hn, fun i p hi hp hslots a m b hr ha =>
    hPQ m (h i p hi hp hslots a m b hr ha)⟩

/-- There are not more levels than non-terminals. -/
theorem level_below_bounded {k n : Nat} (h : level (Below g t current) k n) :
    level (Below g t current) g.nonTerminals.length n :=
  level_bounded (below_mono g t current) (fun _ _ h => h.1) h

theorem level_below_of_ranked (hg : g.Valid) (ht : t.Fits g) {rank : Nat → Nat}
    (hrank : g.Ranked rank) {k n : Nat} (hn : rank n < k) (hlt : n < g.nonTerminals.length) :
    level (Below g t current) k n := by
  induction k generalizing n with
  | zero => exact absurd hn (Nat.not_lt_zero _)
  | succ k ih =>
    refine ⟨hlt, fun i p hi hp _ a m b hr ha => ?_⟩
    obtain ⟨x, -, hi⟩ := Option.bind_eq_some_iff.mp hi
    obtain ⟨q, hq, hleft⟩ := ht.chosen n x i hi
    rw [hp] at hq
    cases hq
    subst hleft
    have hmem := List.mem_of_getElem? hp
    have hlower := hrank.lower p hmem a m b hr (ha.derives ht)
    refine ih (by omega) (Grammar.fits_nonTerminal.mp (hg.right_fits p hmem _ ?_))
    rw [hr]
    exact List.mem_append_right _ List.mem_cons_self

/-- Where the machine stops, it has come to a non-terminal of some level. -/
theorem level_below_of_stops (hg : g.Valid) {k n : Nat} {τ : List Sign}
    (h : advance g t current k (.nonTerminal n :: τ) ≠ .ended .endless)
    (hlt : n < g.nonTerminals.length) : level (Below g t current) k n := by
  induction k generalizing n τ with
  | zero => exact absurd rfl h
  | succ k ih =>
    refine ⟨hlt, fun i p hi hp hslots a m b hr ha => ?_⟩
    rw [advance] at h
    simp only [step, hi, hp, if_pos hslots] at h
    rw [hr, List.append_assoc] at h
    refine ih (ha.stops h) (Grammar.fits_nonTerminal.mp ?_)
    refine hg.right_fits p (List.mem_of_getElem? hp) _ ?_
    rw [hr]
    exact List.mem_append_right _ List.mem_cons_self

/-! ## Steps for one lookahead -/

/-- The end of some signs is passed or the machine stops there, when that holds of the non-terminals
that it comes to. -/
theorem passes_or_halts_right (hg : g.Valid) {b : Nat} {p : Production α}
    (hp : p ∈ g.productions)
    (hbelow : ∀ a m b', p.right = a ++ .nonTerminal m :: b' → Passes g t current a → ∀ τ, ∃ j ≤ b,
      Passes g t current [.nonTerminal m] ∧ Comes g t current j (.nonTerminal m :: τ) τ ∨
        Halts g t current j (.nonTerminal m :: τ))
    (hb : 0 < b) (τ : List Sign) {a u : List Sign} (hr : p.right = a ++ u)
    (ha : Passes g t current a) :
    ∃ j ≤ u.length * b, Passes g t current u ∧ Comes g t current j (u ++ τ) τ ∨
      Halts g t current j (u ++ τ) := by
  induction u generalizing a with
  | nil => exact ⟨0, Nat.zero_le _, .inl ⟨.nil, .refl τ⟩⟩
  | cons s u ih =>
    have hfits : g.Fits p.right := hg.right_fits p hp
    rw [List.length_cons, Nat.succ_mul]
    rcases hfits.terminal_or_nonTerminal (s := s) (by simp [hr]) with ⟨i, rfl, -⟩ | ⟨m, rfl, -⟩
    · exact ⟨1, by omega, .inr (halts_terminal i (u ++ τ))⟩
    · obtain ⟨j, hj, ⟨hm, hcomes⟩ | hhalts⟩ := hbelow a m u hr ha (u ++ τ)
      · obtain ⟨k, hk, hrest⟩ := ih (a := a ++ [.nonTerminal m]) (by simp [hr]) (ha.append hm)
        exact ⟨j + k, by omega, hrest.imp (fun h => ⟨hm.append h.1, hcomes.trans h.2⟩)
          fun h => hcomes.halts h⟩
      · exact ⟨j, by omega, .inr hhalts⟩

/-- A non-terminal is passed while the lookahead stays, or the machine stops below it. The level of
the non-terminal bounds the steps. -/
theorem passes_or_halts (hg : g.Valid) (ht : t.Fits g) {d : Nat}
    (hd : ∀ p ∈ g.productions, p.right.length ≤ d) {k n : Nat}
    (hn : level (Below g t current) k n) (τ : List Sign) :
    ∃ j ≤ (d + 1) ^ k,
      Passes g t current [.nonTerminal n] ∧ Comes g t current j (.nonTerminal n :: τ) τ ∨
        Halts g t current j (.nonTerminal n :: τ) := by
  induction k generalizing n τ with
  | zero => exact hn.elim
  | succ k ih =>
    have hpos : 1 ≤ (d + 1) ^ (k + 1) := Nat.one_le_pow _ _ (Nat.succ_pos d)
    cases hi : current.sign.bind (t.get? n) with
    | none => exact ⟨1, hpos, .inr (halts_of_empty_cell hi τ)⟩
    | some i =>
      obtain ⟨x, hx, hcell⟩ := Option.bind_eq_some_iff.mp hi
      obtain ⟨p, hpi, -⟩ := ht.chosen n x i hcell
      by_cases hslots : p.slots.length = p.right.length
      · have hp := List.mem_of_getElem? hpi
        have hexpand := comes_expand hx hcell hpi τ
        obtain ⟨j, hj, hright⟩ := passes_or_halts_right (t := t) hg hp
          (fun a m b hr ha τ => ih (hn.2 i p hi hpi hslots a m b hr ha) τ)
          (Nat.pow_pos (Nat.succ_pos d)) τ (a := []) rfl .nil
        have hle : 1 + j ≤ (d + 1) ^ (k + 1) :=
          (Nat.add_le_add_left hj 1).trans (one_add_mul_pow_le (hd p hp) k)
        refine ⟨1 + j, hle, hright.imp (fun ⟨hpasses, hcomes⟩ => ?_) fun h => hexpand.halts h⟩
        exact ⟨.expand hi hpi hslots hpasses .nil, hexpand.trans hcomes⟩
      · refine ⟨1, hpos, .inr fun bound => ?_⟩
        rw [Nat.add_comm, advance]
        simp [step, hi, hpi, hslots]

/-- The steps that a run grants are enough when all non-terminals that the machine comes to have a
level. -/
theorem halts_of_level (hg : g.Valid) (ht : t.Fits g) {patience : Nat}
    (hp : patience = (Machine.longest g + 2) ^ (g.nonTerminals.length + 4)) {u : List Sign}
    (hu : ∀ a m b, u = a ++ .nonTerminal m :: b → Passes g t current a →
      ∃ k, level (Below g t current) k m) (hempty : .empty ∉ u) :
    Halts g t current (u.length * patience + 1) u := by
  have hle := (steps_le_patience (Machine.longest g) g.nonTerminals.length).2
  rw [← hp] at hle
  have hpos : 1 ≤ patience := hp ▸ Nat.one_le_pow _ _ (Nat.succ_pos _)
  induction u with
  | nil => exact halts_nil.mono (Nat.le_add_left _ _)
  | cons s τ ih =>
    rw [List.length_cons, Nat.succ_mul]
    cases s with
    | empty => exact absurd List.mem_cons_self hempty
    | terminal i => exact (halts_terminal i τ).mono (by omega)
    | pound => exact (halts_pound τ).mono (by omega)
    | nonTerminal n =>
      obtain ⟨k, hk⟩ := hu [] n τ rfl .nil
      obtain ⟨j, hj, ⟨hpasses, hcomes⟩ | hstops⟩ := passes_or_halts hg ht
        (fun _ hp => length_le_longest hp) (level_below_bounded hk) τ
      · have hrest := ih (fun a m b hτ ha => hu (.nonTerminal n :: a) m b
          (by rw [hτ, List.cons_append]) (hpasses.append ha))
          fun h => hempty (List.mem_cons_of_mem _ h)
        exact (hcomes.halts hrest).mono (by omega)
      · exact hstops.mono (by omega)

/-! ## Whole inputs -/

/-- The signs of a grammar, with the end mark behind them. -/
def Stocked (g : Grammar α) (u : List Sign) : Prop := ∃ v, u = v ++ [.pound] ∧ g.Fits v

theorem Stocked.fits {u : List Sign} (hu : Stocked g u) {s : Sign} (hs : s ∈ u)
    (hne : s ≠ .pound) : g.fits s = true := by
  obtain ⟨v, rfl, hv⟩ := hu
  rcases List.mem_append.mp hs with hs | hs
  · exact hv s hs
  · exact absurd (List.mem_singleton.mp hs) hne

theorem Stocked.empty_not_mem {u : List Sign} (hu : Stocked g u) : .empty ∉ u :=
  fun h => nomatch hu.fits h nofun

theorem Stocked.lt_length {u a b : List Sign} {m : Nat} (hu : Stocked g u)
    (h : u = a ++ .nonTerminal m :: b) : m < g.nonTerminals.length := by
  refine Grammar.fits_nonTerminal.mp (hu.fits ?_ nofun)
  rw [h]
  exact List.mem_append_right _ List.mem_cons_self

theorem advance_ne_endless_of_ranked (hg : g.Valid) (ht : t.Fits g) {rank : Nat → Nat}
    (hrank : g.Ranked rank) {patience : Nat}
    (hp : patience = (Machine.longest g + 2) ^ (g.nonTerminals.length + 4)) {u : List Sign}
    (hu : Stocked g u) :
    advance g t current (u.length * patience + 1) u ≠ .ended .endless :=
  halts_of_level hg ht hp (fun _ _ _ h _ =>
    ⟨_, level_below_of_ranked hg ht hrank (Nat.lt_succ_self _) (hu.lt_length h)⟩)
    hu.empty_not_mem 0

/-- A machine that stops at all stops within the steps that a run grants. -/
theorem advance_ne_endless_of_stops (hg : g.Valid) (ht : t.Fits g) {patience : Nat}
    (hp : patience = (Machine.longest g + 2) ^ (g.nonTerminals.length + 4)) {u : List Sign}
    (hu : Stocked g u) {k : Nat} (h : advance g t current k u ≠ .ended .endless) :
    advance g t current (u.length * patience + 1) u ≠ .ended .endless := by
  refine halts_of_level hg ht hp (fun a m b hm ha => ⟨k, ?_⟩) hu.empty_not_mem 0
  subst hm
  exact level_below_of_stops hg (ha.stops h) (hu.lt_length rfl)

/-- Ways in which a stocked machine stops at a lookahead. The end mark is not taken. -/
inductive Stops (g : Grammar α) (current : Lookahead) : Step → Prop
  | taken {u : List Sign} (h : Stocked g u) (hne : current.sign ≠ some .pound) :
      Stops g current (.taken u)
  | accepted : Stops g current (.ended .accepted)
  | rejected (f : Failure) : Stops g current (.ended (.rejected f))

theorem step_moves_or_stops (current : Lookahead) (hg : g.Valid) (ht : t.Fits g) {u : List Sign}
    (hu : Stocked g u) :
    (∃ u', step g t current u = .moved u' ∧ Stocked g u') ∨
      Stops g current (step g t current u) := by
  obtain ⟨v, rfl, hv⟩ := hu
  cases v with
  | nil =>
    refine .inr ?_
    by_cases hx : current.sign = some .pound
    · simpa [step, hx] using .accepted
    · simpa [step, hx] using .rejected _
  | cons s v =>
    obtain ⟨-, hrest⟩ := Grammar.fits_cons.mp hv
    rcases hv.terminal_or_nonTerminal List.mem_cons_self with ⟨i, rfl, -⟩ | ⟨n, rfl, -⟩
    · refine .inr ?_
      by_cases hx : current.sign = some (.terminal i)
      · simpa [step, hx] using .taken ⟨v, rfl, hrest⟩ (by simp [hx])
      · simpa [step, hx] using .rejected _
    · rw [List.cons_append, step]
      cases hi : current.sign.bind (t.get? n) with
      | none => exact .inr (.rejected _)
      | some i =>
        obtain ⟨x, -, hi⟩ := Option.bind_eq_some_iff.mp hi
        obtain ⟨p, hp, -⟩ := ht.chosen n x i hi
        simp only [hp]
        split
        · have hright : g.Fits p.right := hg.right_fits p (List.mem_of_getElem? hp)
          exact .inl ⟨_, rfl, p.right ++ v, by simp, Grammar.fits_append.mpr ⟨hright, hrest⟩⟩
        · exact .inr (.rejected _)

theorem advance_stops (hg : g.Valid) (ht : t.Fits g) {bound : Nat} {u : List Sign}
    (hu : Stocked g u) (hne : advance g t current bound u ≠ .ended .endless) :
    Stops g current (advance g t current bound u) := by
  induction bound generalizing u with
  | zero => exact absurd rfl hne
  | succ bound ih =>
    rw [advance] at hne ⊢
    rcases step_moves_or_stops current hg ht hu with ⟨u', hs, hu'⟩ | hs
    · simp only [hs] at hne ⊢
      exact ih hu' hne
    · revert hs
      cases step g t current u with
      | moved =>
        rintro ⟨⟩
      | taken => exact id
      | ended => exact id

theorem goOn_ends_of_ranked (hg : g.Valid) (ht : t.Fits g) {rank : Nat → Nat}
    (hrank : g.Ranked rank) {patience : Nat}
    (hp : patience = (Machine.longest g + 2) ^ (g.nonTerminals.length + 4)) (last : Lookahead)
    (hlast : last.sign = some .pound) (rest : List Lookahead) {u : List Sign} (hu : Stocked g u) :
    goOn g t patience last rest u = .accepted ∨
      ∃ f, goOn g t patience last rest u = .rejected f := by
  have hstops : ∀ (current : Lookahead) {u}, Stocked g u →
      Stops g current (advance g t current (u.length * patience + 1) u) := fun current u hu =>
    advance_stops hg ht hu (advance_ne_endless_of_ranked hg ht hrank hp hu)
  induction rest generalizing u with
  | nil =>
    rw [goOn]
    have hlaststops := hstops last hu
    revert hlaststops
    generalize advance g t last (u.length * patience + 1) u = outcome
    rintro (⟨-, hne⟩ | _ | f)
    · exact absurd hlast hne
    · exact .inl rfl
    · exact .inr ⟨f, rfl⟩
  | cons current rest ih =>
    rw [goOn]
    have hcurrentstops := hstops current hu
    revert hcurrentstops
    generalize advance g t current (u.length * patience + 1) u = outcome
    rintro (⟨hu', -⟩ | _ | f)
    · exact ih hu'
    · exact .inl rfl
    · exact .inr ⟨f, rfl⟩

end Outline

/-- Whatever the table chooses and the actions do, a run is accepted or rejected. -/
theorem Machine.run_ends_of_ranked {m : Machine α} (hm : m.semantics.Local)
    (hg : m.grammar.Valid) (ht : m.table.Fits m.grammar) {rank : Nat → Nat}
    (hrank : m.grammar.Ranked rank) (tokens : List Token) (pool : Pool) :
    (m.run tokens pool).verdict = .accepted ∨ ∃ f, (m.run tokens pool).verdict = .rejected f := by
  have hp : m.patience = (longest m.grammar + 2) ^ (m.grammar.nonTerminals.length + 4) := by
    rw [patience, ht.rows_length]
    rfl
  have hends := Outline.goOn_ends_of_ranked hg ht hrank hp (Lookahead.atEnd tokens) rfl
    (tokens.map (Lookahead.ofToken m.grammar)) ⟨_, rfl, hg.fits_start⟩
  rcases goOn_cases hm m.patience (Lookahead.atEnd tokens)
    (tokens.map (Lookahead.ofToken m.grammar)) (shows_start m pool) with he | ⟨f, he, -⟩
  · exact hends.imp he.trans fun ⟨f, hf⟩ => ⟨f, he.trans hf⟩
  · exact .inr ⟨f, he⟩

end PredictiveParsing
