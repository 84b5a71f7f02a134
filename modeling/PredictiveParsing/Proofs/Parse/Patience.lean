import PredictiveParsing.Proofs.Parse.Erasure

/-!
# The count of steps is no limit

`Machine.run` counts steps, so that it is a total function, where the loop of a parser goes on as
long as it can. Without actions the count changes nothing: a run is endless just where the loop has
no end (`endless_plain_iff`), whatever the table chooses. Steps of a machine are those of its
outline, for which `Outline.advance_ne_endless_of_stops` says so lookahead by lookahead.

Actions may fail some rounds later than the count goes. Then, and only then, the run and the loop
come to different ends (`Finishes.run_or_broke`).
-/

namespace PredictiveParsing

variable {α : Type}

namespace Machine

variable {m : Machine α} {last : Lookahead}

theorem step_ne_endless (m : Machine α) (current : Lookahead) (c c' : Config α) :
    m.step current c ≠ .ended .endless c' := by
  intro hs
  have hstepped := stepped_step m current c
  rw [hs] at hstepped
  cases hstepped with
  | visited _ hvisited => cases hvisited

/-! ## One lookahead -/

/-- Enough steps lead a loop that ends beyond its lookahead. -/
theorem Ends.exists_stops {n : Nat} {rest : List Lookahead} {c c' : Config α} {v : Verdict}
    (h : m.Ends last n rest c v c') :
    ∃ k, ∀ c₁, m.advance (rest.headD last) k c ≠ .ended .endless c₁ := by
  induction h with
  | ended hs =>
    refine ⟨1, fun c₁ he => ?_⟩
    rw [advance, hs] at he
    exact step_ne_endless m _ _ c₁ (hs.trans he)
  | moved hs _ ih =>
    obtain ⟨k, hk⟩ := ih
    refine ⟨k + 1, fun c₁ => ?_⟩
    rw [advance, hs]
    exact hk c₁
  | taken hs _ =>
    refine ⟨1, fun c₁ => ?_⟩
    rw [List.headD_cons, advance, hs]
    simp

/-- The loop goes on behind a token that was taken. -/
theorem Ends.behind_taken {bound n : Nat} {current : Lookahead} {rest : List Lookahead}
    {c c₁ c' : Config α} {v : Verdict} (h : m.Ends last n (current :: rest) c v c')
    (htaken : m.advance current bound c = .taken c₁) : ∃ k, m.Ends last k rest c₁ v c' := by
  induction bound generalizing n c with
  | zero => cases htaken
  | succ bound ih =>
    have hstep := h.cases
    rw [List.headD_cons] at hstep
    rw [advance] at htaken
    revert hstep htaken
    cases m.step current c with
    | moved c₂ =>
      rintro htaken ⟨k, -, hends⟩
      exact ih hends htaken
    | taken c₂ =>
      rintro ⟨⟩ ⟨_, _, ⟨⟩, k, -, hends⟩
      exact ⟨k, hends⟩
    | ended v c₂ =>
      intro htaken
      cases htaken

/-- Without actions the steps for a lookahead are those of the outline. -/
theorem agrees_advance_plain (m : Machine α) (current : Lookahead) (bound : Nat) {c : Config α}
    {u : List Sign} (hc : Shows c u) :
    Agrees (m.plain.advance current bound c)
      (Outline.advance m.grammar m.table current bound u) := by
  rcases advance_cases (m := m.plain) Semantics.local_none current bound hc with h | ⟨f, _, -, hf⟩
  · exact h
  · exact absurd hf (not_raises_none m.grammar m.table f)

/-- Where the loop has an end, the steps that are granted lead beyond the lookahead. -/
theorem Ends.advance_stops (hg : m.grammar.Valid) (ht : m.table.Fits m.grammar) {n patience : Nat}
    (hp : patience = (longest m.grammar + 2) ^ (m.grammar.nonTerminals.length + 4))
    {rest : List Lookahead} {c c' : Config α} {v : Verdict} {u : List Sign} (hc : Shows c u)
    (hu : Outline.Stocked m.grammar u) (h : m.plain.Ends last n rest c v c') :
    let o := m.plain.advance (rest.headD last) (c.stack.length * patience + 1) c
    (∃ c₁ u₁, o = .taken c₁ ∧ Shows c₁ u₁ ∧ Outline.Stocked m.grammar u₁) ∨
      ∃ v₁ c₁, o = .ended v₁ c₁ ∧ v₁ ≠ .endless := by
  rw [hc.length_eq]
  intro o
  obtain ⟨k, hk⟩ := h.exists_stops
  have hne : Outline.advance m.grammar m.table (rest.headD last) (u.length * patience + 1) u ≠
      .ended .endless := by
    refine Outline.advance_ne_endless_of_stops hg ht hp hu (k := k) fun hends => ?_
    have hagrees := agrees_advance_plain m (rest.headD last) k hc
    rw [hends] at hagrees
    obtain ⟨c₁, hc₁⟩ := hagrees
    exact hk c₁ hc₁
  have hagrees : Agrees o _ :=
    agrees_advance_plain m (rest.headD last) (u.length * patience + 1) hc
  have hstops := Outline.advance_stops hg ht hu hne
  generalize Outline.advance m.grammar m.table (rest.headD last) (u.length * patience + 1) u =
    outline at hagrees hstops
  cases hstops with
  | taken hu₁ =>
    obtain ⟨c₁, hc₁, hshows⟩ := hagrees
    exact .inl ⟨c₁, _, hc₁, hshows, hu₁⟩
  | accepted =>
    obtain ⟨c₁, hc₁⟩ := hagrees
    exact .inr ⟨_, c₁, hc₁, nofun⟩
  | rejected f =>
    obtain ⟨c₁, hc₁⟩ := hagrees
    exact .inr ⟨_, c₁, hc₁, nofun⟩

/-! ## Whole inputs -/

theorem Ends.goOn_ne_endless (hg : m.grammar.Valid) (ht : m.table.Fits m.grammar)
    {patience : Nat}
    (hp : patience = (longest m.grammar + 2) ^ (m.grammar.nonTerminals.length + 4)) {n : Nat}
    {rest : List Lookahead} {c c' : Config α} {v : Verdict} {u : List Sign} (hc : Shows c u)
    (hu : Outline.Stocked m.grammar u) (h : m.plain.Ends last n rest c v c') :
    (m.plain.goOn patience last rest c).1 ≠ .endless := by
  induction rest generalizing n c u with
  | nil =>
    have hstops := h.advance_stops hg ht hp hc hu
    rw [List.headD_nil] at hstops
    rw [goOn]
    rcases hstops with ⟨c₁, -, hc₁, -⟩ | ⟨v₁, c₁, hc₁, hv₁⟩
    · simp [hc₁]
    · simpa [hc₁] using hv₁
  | cons current rest ih =>
    have hstops := h.advance_stops hg ht hp hc hu
    rw [List.headD_cons] at hstops
    rw [goOn]
    rcases hstops with ⟨c₁, u₁, hc₁, hshows, hu₁⟩ | ⟨v₁, c₁, hc₁, hv₁⟩
    · obtain ⟨k, hends⟩ := h.behind_taken hc₁
      simp only [hc₁]
      exact ih hshows hu₁ hends
    · simpa [hc₁] using hv₁

section Runs

variable {tokens : List Token} {pool : Pool}

theorem Finishes.run_plain_ne_endless (hg : m.grammar.Valid) (ht : m.table.Fits m.grammar)
    {v : Verdict} {c : Config α} (h : m.plain.Finishes tokens pool v c) :
    (m.plain.run tokens pool).verdict ≠ .endless := by
  obtain ⟨n, hends⟩ := h
  have hp : m.plain.patience = (longest m.grammar + 2) ^ (m.grammar.nonTerminals.length + 4) := by
    rw [patience, show m.plain.table = m.table from rfl, ht.rows_length]
    rfl
  exact hends.goOn_ne_endless hg ht hp (shows_start m pool) ⟨_, rfl, hg.fits_start⟩

/-- A run that is not endless comes to the end of the loop. -/
theorem Finishes.run_eq (hm : m.semantics.Local) (hg : m.grammar.Valid)
    (ht : m.table.Fits m.grammar) {v : Verdict} {c : Config α} (h : m.Finishes tokens pool v c)
    (hne : (m.run tokens pool).verdict ≠ .endless) :
    m.run tokens pool = ⟨v, c.workspace.tree, c.workspace.pool, c.history.reverse⟩ := by
  have hastray := run_ne_astray hm hg ht tokens pool
  have hsettled : (m.run tokens pool).verdict = .accepted ∨
      ∃ f, (m.run tokens pool).verdict = .rejected f := by
    cases hv : (m.run tokens pool).verdict with
    | accepted => exact .inl rfl
    | rejected f => exact .inr ⟨f, rfl⟩
    | astray => exact absurd hv hastray
    | endless => exact absurd hv hne
  obtain ⟨c₁, hfinishes, hworkspace, hhistory⟩ := exists_finishes_run hsettled
  obtain ⟨rfl, rfl⟩ := h.unique hfinishes
  rw [hworkspace, hhistory]

/-- The end of the loop is the end of the run, or the run used up its count before an action ended
the loop. -/
theorem Finishes.run_or_broke (hm : m.semantics.Local) (hg : m.grammar.Valid)
    (ht : m.table.Fits m.grammar) {v : Verdict} {c : Config α} (h : m.Finishes tokens pool v c) :
    m.run tokens pool = ⟨v, c.workspace.tree, c.workspace.pool, c.history.reverse⟩ ∨
      (m.run tokens pool).verdict = .endless ∧
        ∃ f, v = .rejected f ∧ m.Broke f c.workspace c.history := by
  by_cases hendless : (m.run tokens pool).verdict = .endless
  · refine .inr ⟨hendless, ?_⟩
    rcases h.broke_or_plain hm.attributive with hbroke | ⟨c', h', -⟩
    · exact hbroke
    · rcases lockstep_goOn hm.attributive m.patience (Lookahead.atEnd tokens)
          (tokens.map (Lookahead.ofToken m.grammar)) (alike_start m pool) with
        ⟨f, hv, -⟩ | hv
      · exact absurd (hv.symm.trans hendless) nofun
      · exact absurd (hv.trans hendless) (h'.run_plain_ne_endless hg ht)
  · exact .inl (h.run_eq hm hg ht hendless)

/-- Without actions a run is endless just where the loop has no end. -/
theorem endless_plain_iff (hg : m.grammar.Valid) (ht : m.table.Fits m.grammar) :
    (m.plain.run tokens pool).verdict = .endless ↔ ∀ v c, ¬ m.plain.Finishes tokens pool v c := by
  constructor
  · exact fun hendless v c h => h.run_plain_ne_endless hg ht hendless
  · intro hends
    have hastray := run_ne_astray (m := m.plain) Semantics.local_none hg ht tokens pool
    cases hv : (m.plain.run tokens pool).verdict with
    | endless => rfl
    | astray => exact absurd hv hastray
    | accepted =>
      obtain ⟨c, h, -⟩ := exists_finishes_run (.inl hv)
      exact absurd h (hends _ c)
    | rejected f =>
      obtain ⟨c, h, -⟩ := exists_finishes_run (.inr ⟨f, hv⟩)
      exact absurd h (hends _ c)

end Runs

end Machine

end PredictiveParsing
