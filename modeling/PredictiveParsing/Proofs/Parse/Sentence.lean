import PredictiveParsing.Proofs.Parse.Halting

/-!
# Sentences and viable prefixes

What the signs of a stack have to do with the language: `Parsed g pre x st` says that the start
symbol derives the signs `pre` that were taken followed by the stack `st`, and that every rest of
the input that begins with the lookahead `x` and completes a sentential form is derived by the
stack. A step keeps this or ends the run (`Parsed.step`): an expansion does because any other
production that could lead on would claim the same cell. Going through the whole input, a run
accepts a sentence and rejects anything else behind the longest viable prefix (`justified_run`).
-/

namespace PredictiveParsing

variable {α : Type} {g : Grammar α} {t : Table}

namespace Grammar

/-- The kinds of the tokens resolve to the signs `u`. -/
def Spells (g : Grammar α) (tokens : List Token) (u : List Sign) : Prop :=
  tokens.map (fun token => g.terminal token.kind) = u.map some

def Sentence (g : Grammar α) (tokens : List Token) : Prop :=
  ∃ u, g.Spells tokens u ∧ g.Derives [.nonTerminal g.start] u

/-- The tokens resolve to terminals that some sentential form begins with. -/
def Viable (g : Grammar α) (tokens : List Token) : Prop :=
  ∃ u d, g.Spells tokens u ∧ g.Derives [.nonTerminal g.start] (u ++ d)

theorem Spells.unique {tokens : List Token} {u v : List Sign} (hu : g.Spells tokens u)
    (hv : g.Spells tokens v) : u = v :=
  List.map_injective_iff.mpr (Option.some_injective Sign) (hu.symm.trans hv)

theorem Spells.append {tokens rest : List Token} {u v : List Sign} (hu : g.Spells tokens u)
    (hv : g.Spells rest v) : g.Spells (tokens ++ rest) (u ++ v) := by
  rw [Spells, List.map_append, List.map_append, hu, hv]

theorem Spells.split {tokens rest : List Token} {w : List Sign}
    (h : g.Spells (tokens ++ rest) w) :
    ∃ u v, w = u ++ v ∧ g.Spells tokens u ∧ g.Spells rest v := by
  rw [Spells, List.map_append] at h
  obtain ⟨u, v, rfl, hu, hv⟩ := List.map_eq_append_iff.mp h.symm
  exact ⟨u, v, rfl, hu.symm, hv.symm⟩

theorem Viable.of_append {tokens rest : List Token} (h : g.Viable (tokens ++ rest)) :
    g.Viable tokens := by
  obtain ⟨w, d, hw, hd⟩ := h
  obtain ⟨u, v, rfl, hu, -⟩ := hw.split
  exact ⟨u, v ++ d, hu, by rwa [← List.append_assoc]⟩

theorem Sentence.viable {tokens : List Token} (h : g.Sentence tokens) : g.Viable tokens := by
  obtain ⟨u, hu, hd⟩ := h
  exact ⟨u, [], hu, by rwa [List.append_nil]⟩

end Grammar

/-! ## What a lookahead stands for -/

/-- A rest of the input, as signs, that the lookahead `x` is the first of. -/
def Heads : Option Sign → List Sign → Prop
  | some (.terminal i), v => ∃ w, v = .terminal i :: w
  | some .pound, v => v = []
  | _, _ => False

theorem Heads.nil {x : Option Sign} (h : Heads x []) : x = some .pound := by
  unfold Heads at h
  split at h
  · obtain ⟨w, hw⟩ := h
    cases hw
  · rfl
  · exact h.elim

theorem Heads.cons {x : Option Sign} {s : Sign} {w : List Sign} (h : Heads x (s :: w)) :
    x = some s ∧ ∃ i, s = .terminal i := by
  unfold Heads at h
  split at h
  · obtain ⟨w, hw⟩ := h
    cases hw
    exact ⟨rfl, _, rfl⟩
  · cases h
  · exact h.elim

/-! ## Productions that lead on claim the cell -/

theorem Grammar.exists_production_of_derives {n : Nat} {u a b : List Sign} {p : Production α}
    (h : g.Derives [.nonTerminal n] u) (hu : u = a ++ .nonTerminal p.left :: b)
    (hp : p ∈ g.productions) : ∃ q ∈ g.productions, q.left = n := by
  rcases Grammar.derives_cons_iff.mp h with ⟨v, rfl, hv⟩ | ⟨q, hq, hn, -⟩
  · obtain rfl := Grammar.derives_nil_iff.mp hv
    obtain ⟨rfl, hn, rfl⟩ : a = [] ∧ Sign.nonTerminal p.left = .nonTerminal n ∧ b = [] := by
      cases a with
      | nil => simpa [eq_comm] using hu
      | cons s a => simp at hu
    exact ⟨p, hp, Sign.nonTerminal.inj hn⟩
  · exact ⟨q, hq, (Sign.nonTerminal.inj hn).symm⟩

/-- A production that leads on from a stack the start symbol comes to claims the lookahead. -/
theorem Grammar.claims_of_derives {pre st v : List Sign} {q : Production α}
    (hq : q ∈ g.productions)
    (hreach : g.Derives [.nonTerminal g.start] (pre ++ .nonTerminal q.left :: st)) {x : Option Sign}
    (hv : Heads x v) (hd : g.Derives (q.right ++ st) v) : ∃ s, x = some s ∧ g.Claims q s := by
  cases v with
  | nil =>
    obtain ⟨hright, hst⟩ := Grammar.Derives.vanishes_append.mp hd
    have hstart := Grammar.exists_production_of_derives hreach rfl hq
    refine ⟨.pound, hv.nil, .inr ⟨hright, hstart, pre, ?_⟩⟩
    exact hreach.trans (.append_left pre (.append_left [_] hst))
  | cons s w =>
    obtain ⟨rfl, i, rfl⟩ := hv.cons
    refine ⟨_, rfl, ?_⟩
    rcases Grammar.leads_append.mp ⟨w, hd⟩ with hl | ⟨hnil, w', hw'⟩
    · exact .inl ⟨hl, by simp⟩
    · refine .inr ⟨hnil, g.start, pre, w', ?_⟩
      exact hreach.trans (.append_left pre (.append_left [_] hw'))

/-! ## Steps -/

/-- What was taken is `pre`, the lookahead is `x`, and `st` lies on the stack above the end mark. -/
structure Parsed (g : Grammar α) (pre : List Sign) (x : Option Sign) (st : List Sign) : Prop where
  reached : g.Derives [.nonTerminal g.start] (pre ++ st)
  forced : ∀ v, Heads x v → g.Derives [.nonTerminal g.start] (pre ++ v) → g.Derives st v

theorem Parsed.start (g : Grammar α) (x : Option Sign) : Parsed g [] x [.nonTerminal g.start] :=
  ⟨.refl _, fun _ _ h => h⟩

/-- The ways in which the steps for one lookahead may end. -/
inductive Settles (g : Grammar α) (pre : List Sign) (current : Lookahead) : Outline.Step → Prop
  | taken {i : Nat} {st : List Sign} (hs : current.sign = some (.terminal i))
      (h : ∀ y, Parsed g (pre ++ [.terminal i]) y st) :
      Settles g pre current (.taken (st ++ [.pound]))
  | accepted (hs : current.sign = some .pound) (h : g.Derives [.nonTerminal g.start] pre) :
      Settles g pre current (.ended .accepted)
  | rejected (h : ∀ v, Heads current.sign v → ¬ g.Derives [.nonTerminal g.start] (pre ++ v)) :
      Settles g pre current (.ended (.rejected current.failure))
  | misfit {p : Production α} (hp : p ∈ g.productions) (h : p.slots.length ≠ p.right.length) :
      Settles g pre current (.ended (.rejected (.arity (g.textOf p))))

theorem Parsed.take {pre st : List Sign} {i : Nat}
    (h : Parsed g pre (some (.terminal i)) (.terminal i :: st)) (y : Option Sign) :
    Parsed g (pre ++ [.terminal i]) y st := by
  refine ⟨by simpa using h.reached, fun v _ hv => ?_⟩
  have hd := h.forced (.terminal i :: v) ⟨v, rfl⟩ (by simpa using hv)
  rcases Grammar.derives_cons_iff.mp hd with ⟨w, hw, hst⟩ | ⟨q, -, hq, -⟩
  · cases hw
    exact hst
  · cases hq

/-- The table chooses a production that keeps every way to go on. -/
theorem Parsed.expand (ht : t.Exact g) {pre st : List Sign} {s : Sign} {n i : Nat}
    (h : Parsed g pre (some s) (.nonTerminal n :: st)) (hi : t.get? n s = some i)
    {p : Production α} (hp : g.productions[i]? = some p) :
    Parsed g pre (some s) (p.right ++ st) := by
  obtain ⟨p', hp', rfl, -⟩ := ht.claimed n s i hi
  obtain rfl : p' = p := Option.some.inj (hp'.symm.trans hp)
  refine ⟨h.reached.trans (.append_left pre ?_), fun v hv hd => ?_⟩
  · exact (Grammar.Derives.of_production (List.mem_of_getElem? hp)).append_right st
  · rcases Grammar.derives_cons_iff.mp (h.forced v hv hd) with ⟨w, rfl, -⟩ | ⟨q, hq, hn, hqv⟩
    · obtain ⟨-, i, hi⟩ := hv.cons
      cases hi
    · obtain hleft : p'.left = q.left := Sign.nonTerminal.inj hn
      obtain ⟨_, hs, hclaims⟩ := Grammar.claims_of_derives hq (hleft ▸ h.reached) hv hqv
      cases hs
      obtain ⟨j, r, hj, hr, -, hright⟩ := ht.chosen q hq s hclaims
      obtain rfl : i = j := Option.some.inj (hi.symm.trans (hleft ▸ hj))
      obtain rfl : p' = r := Option.some.inj (hp.symm.trans hr)
      rwa [hright]

theorem Parsed.step (hg : g.Valid) (ht : t.Exact g) {pre st : List Sign} {current : Lookahead}
    (h : Parsed g pre current.sign st) :
    (∃ st', Outline.step g t current (st ++ [.pound]) = .moved (st' ++ [.pound]) ∧
      Parsed g pre current.sign st') ∨
    Settles g pre current (Outline.step g t current (st ++ [.pound])) := by
  have hfits : g.Fits st := (Grammar.fits_append.mp (hg.fits_of_derives h.reached hg.fits_start)).2
  cases st with
  | nil =>
    refine .inr ?_
    by_cases hs : current.sign = some .pound
    · simp only [Outline.step, List.nil_append, hs, if_true]
      exact .accepted hs (by simpa using h.reached)
    · simp only [Outline.step, List.nil_append, hs, if_false]
      refine .rejected fun v hv hd => hs ?_
      obtain rfl := Grammar.derives_nil_iff.mp (h.forced v hv hd)
      exact hv.nil
  | cons s st =>
    rcases hfits.terminal_or_nonTerminal List.mem_cons_self with ⟨i, rfl, -⟩ | ⟨n, rfl, -⟩
    · refine .inr ?_
      by_cases hs : current.sign = some (.terminal i)
      · have hne : st ++ [Sign.pound] ≠ [] := by simp
        simp only [Outline.step, List.cons_append, hs, if_true, hne, if_false]
        rw [hs] at h
        exact .taken hs h.take
      · simp only [Outline.step, List.cons_append, hs, if_false]
        refine .rejected fun v hv hd => hs ?_
        rcases Grammar.derives_cons_iff.mp (h.forced v hv hd) with ⟨w, rfl, -⟩ | ⟨q, -, hq, -⟩
        · exact hv.cons.1
        · cases hq
    · cases hi : current.sign.bind (t.get? n) with
      | none =>
        refine .inr ?_
        simp only [Outline.step, List.cons_append, hi]
        refine .rejected fun v hv hd => ?_
        rcases Grammar.derives_cons_iff.mp (h.forced v hv hd) with ⟨w, rfl, -⟩ | ⟨q, hq, hn, hqv⟩
        · obtain ⟨-, i, hi⟩ := hv.cons
          cases hi
        · cases hn
          obtain ⟨s, hs, hclaims⟩ := Grammar.claims_of_derives hq h.reached hv hqv
          obtain ⟨j, r, hj, -⟩ := ht.chosen q hq s hclaims
          rw [hs, Option.bind_some, hj] at hi
          cases hi
      | some i =>
        obtain ⟨s, hs, hi'⟩ := Option.bind_eq_some_iff.mp hi
        obtain ⟨p, hp, -⟩ := ht.claimed n s i hi'
        by_cases hl : p.slots.length = p.right.length
        · refine .inl ⟨p.right ++ st, ?_, ?_⟩
          · simp only [Outline.step, List.cons_append, hi, hp, hl, if_true, List.append_assoc]
          · rw [hs] at h ⊢
            exact h.expand ht hi' hp
        · refine .inr ?_
          simp only [Outline.step, List.cons_append, hi, hp, hl, if_false]
          exact .misfit (List.mem_of_getElem? hp) hl

theorem Parsed.advance (hg : g.Valid) (ht : t.Exact g) {pre st : List Sign} {current : Lookahead}
    (h : Parsed g pre current.sign st) {bound : Nat}
    (hend : Outline.advance g t current bound (st ++ [.pound]) ≠ .ended .endless) :
    Settles g pre current (Outline.advance g t current bound (st ++ [.pound])) := by
  induction bound generalizing st with
  | zero => exact absurd rfl hend
  | succ bound ih =>
    rw [Outline.advance] at hend ⊢
    rcases h.step hg ht with ⟨st', hs, h'⟩ | hs
    · simp only [hs] at hend ⊢
      exact ih h' hend
    · revert hs
      cases Outline.step g t current (st ++ [.pound]) with
      | moved =>
        intro hs
        cases hs
      | taken | ended => exact id

/-! ## Runs -/

/-- How the parser fails at a position of the input; behind the last token it is at the end mark. -/
def failureAt (tokens : List Token) (k : Nat) : Failure :=
  match tokens[k]? with
  | some token => .unexpected token.text token.line
  | none => .unexpected "" ((tokens.getLast?).elim 1 Token.line)

theorem failureAt_eq_unexpected (tokens : List Token) (k : Nat) :
    ∃ text line, failureAt tokens k = .unexpected text line := by
  rw [failureAt]
  split
  · exact ⟨_, _, rfl⟩
  · exact ⟨_, _, rfl⟩

/-- The input may not go on as it does: it is no sentence if it ends here, and else the prefix with
one more token is not viable. -/
structure Stuck (g : Grammar α) (tokens : List Token) (k : Nat) : Prop where
  le : k ≤ tokens.length
  viable : g.Viable (tokens.take k)
  next : k < tokens.length → ¬ g.Viable (tokens.take (k + 1))
  not_sentence : ¬ g.Sentence tokens

theorem heads_ofToken {token : Token} {s : Sign} (h : g.terminal token.kind = some s)
    (v : List Sign) : Heads (Lookahead.ofToken g token).sign (s :: v) := by
  obtain ⟨i, -, rfl⟩ := Option.map_eq_some_iff.mp h
  rw [Lookahead.ofToken, h]
  exact ⟨v, rfl⟩

/-- At a token that settles the run, the prefix before it is the longest viable one. -/
theorem stuck_of_token {done rest : List Token} {token : Token} {pre st : List Sign}
    (hpre : g.Spells done pre) (hreached : g.Derives [.nonTerminal g.start] (pre ++ st))
    (h : ∀ v, Heads (Lookahead.ofToken g token).sign v →
      ¬ g.Derives [.nonTerminal g.start] (pre ++ v)) :
    Stuck g (done ++ token :: rest) done.length := by
  have hnext : ¬ g.Viable (done ++ [token]) := by
    rintro ⟨w, d, hw, hd⟩
    obtain ⟨u, v, rfl, hu, hv⟩ := hw.split
    obtain rfl := hu.unique hpre
    obtain ⟨s, rfl⟩ : ∃ s, v = [s] :=
      List.length_eq_one_iff.mp (by simpa using congrArg List.length hv.symm)
    have hs : g.terminal token.kind = some s := by simpa [Grammar.Spells] using hv
    exact h _ (heads_ofToken hs d) (by simpa using hd)
  rw [List.append_cons]
  refine ⟨by simp, ⟨pre, st, by simpa using hpre, hreached⟩, fun _ => ?_, fun hs => ?_⟩
  · rwa [List.take_left' (by simp)]
  · exact hnext hs.viable.of_append

/-- What a run may come to, with the reason for it. -/
inductive Justified (g : Grammar α) (tokens : List Token) : Verdict → Prop
  | accepted (h : g.Sentence tokens) : Justified g tokens .accepted
  | rejected {k : Nat} (h : Stuck g tokens k) : Justified g tokens (.rejected (failureAt tokens k))
  | misfit {p : Production α} (hp : p ∈ g.productions) (h : p.slots.length ≠ p.right.length) :
      Justified g tokens (.rejected (.arity (g.textOf p)))

theorem Justified.accepted_or_rejected {tokens : List Token} {v : Verdict}
    (h : Justified g tokens v) : v = .accepted ∨ ∃ f, v = .rejected f := by
  cases h with
  | accepted => exact .inl rfl
  | rejected => exact .inr ⟨_, rfl⟩
  | misfit => exact .inr ⟨_, rfl⟩

theorem justified_goOn (hg : g.Valid) (ht : t.Exact g) {patience : Nat}
    (hp : patience = (Machine.longest g + 2) ^ (g.nonTerminals.length + 4)) {last : Lookahead}
    (hlast : last.sign = some .pound) {done rest : List Token} {pre st : List Sign}
    (hpre : g.Spells done pre) (h : ∀ x, Parsed g pre x st)
    (hfailure : ∀ k, (done ++ rest)[k]? = none → last.failure = failureAt (done ++ rest) k) :
    Justified g (done ++ rest)
      (Outline.goOn g t patience last (rest.map (Lookahead.ofToken g)) (st ++ [.pound])) := by
  have hsettles (current : Lookahead) := (h current.sign).advance hg ht
    (Outline.halts_of_exact hg ht current hp _ 0)
  induction rest generalizing done pre st with
  | nil =>
    rw [List.map_nil, Outline.goOn]
    rw [List.append_nil] at hfailure ⊢
    have hs := hsettles last
    revert hs
    generalize Outline.advance g t last _ _ = o
    intro hs
    cases hs with
    | taken hs => cases hlast.symm.trans hs
    | accepted _ hd => exact .accepted ⟨pre, hpre, hd⟩
    | rejected hr =>
      simp only [hfailure done.length (by simp)]
      refine .rejected ⟨Nat.le_refl _, ?_, fun hlt => absurd hlt (Nat.lt_irrefl _), ?_⟩
      · rw [List.take_length]
        exact ⟨pre, st, hpre, (h none).reached⟩
      · rintro ⟨u, hu, hd⟩
        obtain rfl := hu.unique hpre
        exact hr [] (by rw [hlast]; rfl) (by rwa [List.append_nil])
    | misfit hp hl => exact .misfit hp hl
  | cons token rest ih =>
    rw [List.map_cons, Outline.goOn]
    have hs := hsettles (Lookahead.ofToken g token)
    revert hs
    generalize Outline.advance g t _ _ _ = o
    intro hs
    cases hs with
    | @taken i st' hs h' =>
      have hpre' : g.Spells (done ++ [token]) (pre ++ [.terminal i]) :=
        hpre.append (by rw [Grammar.Spells]; exact congrArg (fun s => [s]) hs)
      rw [List.append_cons done token rest] at hfailure ⊢
      refine ih hpre' h' hfailure fun current => ?_
      exact (h' current.sign).advance hg ht
        (Outline.halts_of_exact hg ht current hp _ 0)
    | accepted hs =>
      obtain ⟨i, -, hi⟩ := Option.map_eq_some_iff.mp hs
      cases hi
    | rejected hr =>
      have hf : (Lookahead.ofToken g token).failure =
          failureAt (done ++ token :: rest) done.length := by
        simp [failureAt, Lookahead.failure, Lookahead.ofToken]
      simp only [hf]
      exact .rejected (stuck_of_token hpre (h none).reached hr)
    | misfit hp hl => exact .misfit hp hl

/-- The machine that only parses. -/
abbrev Compiled.recognizer (c : Compiled) (g : Grammar α) : Machine α :=
  ⟨g, c.table, Semantics.none⟩

/-- Without actions, a run with an exact table is never endless and never goes astray. -/
theorem justified_run {c : Compiled} (hc : c.Exact g) (tokens : List Token) (pool : Pool) :
    Justified g tokens ((c.recognizer g).run tokens pool).verdict := by
  have hnil : g.Spells [] [] := rfl
  rw [Machine.run_eq_goOn]
  refine justified_goOn hc.valid hc.table ?_ rfl hnil (Parsed.start g) ?_
  · show Nat.pow _ _ = _
    rw [hc.table.rows_length]
    rfl
  · intro k hk
    rw [List.nil_append] at hk ⊢
    rw [failureAt, hk]
    rfl

end PredictiveParsing
