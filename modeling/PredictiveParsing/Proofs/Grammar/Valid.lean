import PredictiveParsing.Proofs.Grammar.Derivation

/-!
# Grammars whose indices fit

`validate_eq_ok_iff`: `validate` accepts exactly the grammars whose start symbol and whose signs lie
in the alphabets. In such a grammar only signs of the alphabets are ever derived
(`Valid.fits_of_derives`).
-/

namespace PredictiveParsing

theorem bind_eq_ok {ε β γ : Type} {x : Except ε β} {f : β → Except ε γ} {c : γ} :
    x >>= f = .ok c ↔ ∃ b, x = .ok b ∧ f b = .ok c := by
  cases x <;> simp [bind, Except.bind]

namespace Grammar

variable {α : Type} {g : Grammar α}

structure Valid (g : Grammar α) : Prop where
  start_lt : g.start < g.nonTerminals.length
  left_lt : ∀ p ∈ g.productions, p.left < g.nonTerminals.length
  right_fits : ∀ p ∈ g.productions, ∀ s ∈ p.right, g.fits s = true

def Fits (g : Grammar α) (u : List Sign) : Prop := ∀ s ∈ u, g.fits s = true

instance (u : List Sign) : Decidable (g.Fits u) := inferInstanceAs (Decidable (∀ s ∈ u, _))

theorem fits_append {u v : List Sign} : g.Fits (u ++ v) ↔ g.Fits u ∧ g.Fits v :=
  List.forall_mem_append

theorem fits_cons {s : Sign} {u : List Sign} : g.Fits (s :: u) ↔ g.fits s = true ∧ g.Fits u :=
  List.forall_mem_cons

theorem fits_nonTerminal {n : Nat} : g.fits (.nonTerminal n) = true ↔ n < g.nonTerminals.length :=
  decide_eq_true_iff

theorem fits_terminal {i : Nat} : g.fits (.terminal i) = true ↔ i < g.terminals.length :=
  decide_eq_true_iff

theorem checkSigns_eq_ok_iff {u : List Sign} : g.checkSigns u = .ok () ↔ g.Fits u := by
  induction u with
  | nil => simp [checkSigns, Fits]
  | cons s u ih =>
    rw [fits_cons, checkSigns]
    by_cases h : g.fits s = true
    · simp [h, ih]
    · simp [h]

theorem checkProductions_eq_ok_iff {ps : List (Production α)} :
    g.checkProductions ps = .ok () ↔
      ∀ p ∈ ps, p.left < g.nonTerminals.length ∧ g.Fits p.right := by
  induction ps with
  | nil => simp [checkProductions]
  | cons p ps ih =>
    have hleft : g.checkSigns [.nonTerminal p.left] = .ok () ↔ p.left < g.nonTerminals.length := by
      rw [checkSigns_eq_ok_iff, Fits, List.forall_mem_singleton, fits_nonTerminal]
    rw [List.forall_mem_cons, ← ih, ← hleft, ← checkSigns_eq_ok_iff, checkProductions]
    cases g.checkSigns [.nonTerminal p.left] with
    | error => simp [bind, Except.bind]
    | ok =>
      cases g.checkSigns p.right with
      | error => simp [bind, Except.bind]
      | ok => simp [bind, Except.bind]

theorem validate_eq_ok_iff : g.validate = .ok () ↔ g.Valid := by
  rw [validate]
  split
  next h =>
    rw [checkProductions_eq_ok_iff]
    exact ⟨fun hp => ⟨h, fun p hm => (hp p hm).1, fun p hm => (hp p hm).2⟩,
      fun hv p hm => ⟨hv.left_lt p hm, hv.right_fits p hm⟩⟩
  next h =>
    constructor
    · intro e
      cases e
    · intro hv
      exact absurd hv.start_lt h

/-! ## What a valid grammar derives -/

/-- A sign that was not there from the beginning stands on a right side. -/
theorem Valid.mem_or_fits_of_derives (hg : g.Valid) {u v : List Sign} (h : g.Derives u v) :
    ∀ s ∈ v, s ∈ u ∨ g.fits s = true := by
  rw [derives_iff_unfolds] at h
  induction h with
  | nil => simp
  | keep t _ ih =>
    rw [List.forall_mem_cons]
    exact ⟨.inl List.mem_cons_self, fun s hs => (ih s hs).imp_left (List.mem_cons_of_mem t)⟩
  | expand hp _ _ ihb ihr =>
    rw [List.forall_mem_append]
    refine ⟨fun s hs => .inr ?_, fun s hs => (ihr s hs).imp_left (List.mem_cons_of_mem _)⟩
    exact (ihb s hs).elim (hg.right_fits _ hp s) id

theorem Valid.fits_of_derives (hg : g.Valid) {u v : List Sign} (h : g.Derives u v)
    (hu : g.Fits u) : g.Fits v :=
  fun s hs => (hg.mem_or_fits_of_derives h s hs).elim (hu s) id

theorem Valid.fits_start (hg : g.Valid) : g.Fits [.nonTerminal g.start] :=
  List.forall_mem_singleton.mpr (fits_nonTerminal.mpr hg.start_lt)

/-- A sign of a list that fits is a terminal or a non-terminal. -/
theorem Fits.terminal_or_nonTerminal {u : List Sign} (h : g.Fits u) {s : Sign} (hs : s ∈ u) :
    (∃ i, s = .terminal i ∧ i < g.terminals.length) ∨
      ∃ n, s = .nonTerminal n ∧ n < g.nonTerminals.length := by
  have hf := h s hs
  cases s with
  | terminal i => exact .inl ⟨i, rfl, fits_terminal.mp hf⟩
  | nonTerminal n => exact .inr ⟨n, rfl, fits_nonTerminal.mp hf⟩
  | empty => cases hf
  | pound => cases hf

end Grammar

end PredictiveParsing
