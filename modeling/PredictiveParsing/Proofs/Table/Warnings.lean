import PredictiveParsing.Proofs.Grammar.Height
import PredictiveParsing.Proofs.Table.Conflicts

/-!
# Warnings and conflicts

Warnings are told from the sets, conflicts from the cells. `SharesFirst` and `SharesFollow` say in
terms of derivations what a warning means (`mem_found_firstFirst`, `mem_found_firstFollow`).

* `Grammar.shares_of_claims`: productions in conflict are warned of at their own non-terminal;
* `ClaimsAgree.not_sharesFollow`: without a conflict no first set meets its follow set;
* `ClaimsAgree.sharesFirst`: without a conflict first sets meet only for repeated productions, and
  for productions that vanish where nothing follows;
* `warnings_agree`: both directions for the warnings of a compilation.

The second is not about one non-terminal: where the first and follow sets meet, it may be a
non-terminal further down that has the conflict. It is found on the way down to the terminal that
both sets have (`ClaimsAgree.not_follows_of_leading`).
-/

namespace PredictiveParsing

variable {α : Type} {g : Grammar α}

namespace Grammar

/-! ## Overlaps and conflicts -/

/-- Two productions of `nt`, at different indices, can begin with `s`, or can both vanish. -/
def SharesFirst (g : Grammar α) (nt : Nat) : Prop :=
  ∃ (i j : Nat) (p q : Production α) (s : Sign), i < j ∧ g.productions[i]? = some p ∧
    g.productions[j]? = some q ∧ p.left = nt ∧ q.left = nt ∧ g.Begins p.right s ∧ g.Begins q.right s

/-- `nt` can vanish, and something that it can begin with follows it. -/
def SharesFollow (g : Grammar α) (nt : Nat) : Prop :=
  g.Derives [.nonTerminal nt] [] ∧ ∃ s, g.Begins [.nonTerminal nt] s ∧ g.Follows nt s

/-- Two productions that claim one cell begin alike, or one vanishes before what the other begins
with. -/
theorem shares_of_claims {i j : Nat} {p q : Production α} (hij : i < j)
    (hp : g.productions[i]? = some p) (hq : g.productions[j]? = some q) (hleft : p.left = q.left)
    {x : Sign} (hpx : g.Claims p x) (hqx : g.Claims q x) :
    g.SharesFirst q.left ∨ g.SharesFollow q.left := by
  have hfollow : ∀ r ∈ g.productions, ∀ r' ∈ g.productions, r.left = q.left → r'.left = q.left →
      g.Begins r.right x → g.Derives r'.right [] → g.Follows q.left x → g.SharesFollow q.left := by
    intro r hr r' hr' hl hl' hbegins hvanish hfollows
    exact ⟨hl' ▸ (Derives.of_production hr').trans hvanish, x,
      hl ▸ First.begins_of_production hr hbegins, hfollows⟩
  have hpm := List.mem_of_getElem? hp
  have hqm := List.mem_of_getElem? hq
  rcases hpx with ⟨hpx, -⟩ | ⟨hpv, hpx⟩
  · rcases hqx with ⟨hqx, -⟩ | ⟨hqv, hqx⟩
    · exact .inl ⟨i, j, p, q, x, hij, hp, hq, hleft, rfl, hpx, hqx⟩
    · exact .inr (hfollow p hpm q hqm hleft rfl hpx hqv hqx)
  · rcases hqx with ⟨hqx, -⟩ | ⟨hqv, hqx⟩
    · exact .inr (hfollow q hqm p hpm rfl hleft hqx hpv (hleft ▸ hpx))
    · exact .inl ⟨i, j, p, q, .empty, hij, hp, hq, hleft, rfl, hpv, hqv⟩

/-- Where claims agree, a non-terminal that can vanish is not followed by a terminal that it can
begin with. -/
theorem ClaimsAgree.not_follows_of_leading (hagree : g.ClaimsAgree) {t k n : Nat}
    (h : level (g.Leading t) k n) (hvanish : g.Derives [.nonTerminal n] []) :
    ¬ g.Follows n (.terminal t) := by
  -- The production that vanishes has the shape of the one that leads to the terminal. So the
  -- non-terminal by which it does is again one that vanishes and is followed by the terminal.
  induction k generalizing n with
  | zero => exact h.elim
  | succ k ih =>
    intro hfollows
    obtain ⟨p, hp, rfl, a, s, b, hright, ha, hs⟩ := h
    obtain ⟨v, hv, -⟩ | ⟨q, hq, hleft, hqv⟩ := derives_cons_iff.mp hvanish
    · cases hv
    · have hleft : q.left = p.left := (Sign.nonTerminal.inj hleft).symm
      rw [List.append_nil] at hqv
      have hpx : g.Claims p (.terminal t) := by
        refine .inl ⟨?_, Sign.noConfusion⟩
        show g.Leads p.right (.terminal t)
        rw [hright]
        exact (leads_of_terminal_or_leading hs).behind ha
      have hshape := hagree p hp q hq (.terminal t) hleft.symm hpx (.inr ⟨hqv, hleft ▸ hfollows⟩)
      rw [← hshape.2, hright, Derives.vanishes_append] at hqv
      obtain ⟨-, hsb⟩ := hqv
      obtain ⟨hs', hb⟩ := (Derives.vanishes_append (u := [s])).mp hsb
      rcases hs with rfl | ⟨m, rfl, hm⟩
      · cases hs'.eq_of_isWord (by simp [IsWord, Sign.isTerminal])
      · exact ih hm hs' (Follow.follows_of_left hp hright hb hfollows)

theorem ClaimsAgree.not_sharesFollow (hg : g.Valid) (hagree : g.ClaimsAgree) (nt : Nat) :
    ¬ g.SharesFollow nt := by
  rintro ⟨hvanish, s, hbegins, hfollows⟩
  cases s with
  | terminal t => exact hagree.not_follows_of_leading (leads_bounded hg hbegins) hvanish hfollows
  | empty => exact hfollows
  | nonTerminal m => exact hfollows
  | pound => exact hbegins

/-- Where claims agree, productions that begin alike have one shape, or vanish where nothing
follows. -/
theorem ClaimsAgree.sharesFirst (hagree : g.ClaimsAgree) {nt : Nat} (h : g.SharesFirst nt) :
    (∃ (i j : Nat) (p q : Production α), i < j ∧ g.productions[i]? = some p ∧
      g.productions[j]? = some q ∧ p.left = nt ∧ p.SameShape q) ∨ ∀ x, ¬ g.Follows nt x := by
  obtain ⟨i, j, p, q, s, hij, hp, hq, hpl, hql, hps, hqs⟩ := h
  by_cases hclaim : ∃ x, g.Claims p x ∧ g.Claims q x
  · obtain ⟨x, hpx, hqx⟩ := hclaim
    exact .inl ⟨i, j, p, q, hij, hp, hq, hpl, hagree p (List.mem_of_getElem? hp) q
      (List.mem_of_getElem? hq) x (hpl.trans hql.symm) hpx hqx⟩
  · refine .inr fun x hx => hclaim ?_
    by_cases hs : s = .empty
    · subst hs
      exact ⟨x, .inr ⟨hps, hpl ▸ hx⟩, .inr ⟨hqs, hql ▸ hx⟩⟩
    · exact ⟨s, .inl ⟨hps, hs⟩, .inl ⟨hqs, hs⟩⟩

end Grammar

namespace Overlap

variable {firsts follows : Family} {nt : Nat}

/-! ## What is warned of -/

theorem anyShared_iff {As : List SignSet} :
    anyShared As = true ↔ ¬ As.Pairwise fun A B => ∀ s ∈ A, s ∉ B := by
  induction As with
  | nil => simp [anyShared]
  | cons A As ih =>
    have hany : As.any (fun B => !A.disjoint B) = true ↔ ¬ ∀ B ∈ As, ∀ s ∈ A, s ∉ B := by
      simp [← SignSet.disjoint_iff]
    rw [anyShared, Bool.or_eq_true, hany, ih, List.pairwise_cons, not_and_or]

theorem anyShared_bodies_iff (hf : First.Exact g firsts) :
    anyShared (bodies g firsts nt) = true ↔ g.SharesFirst nt := by
  rw [anyShared_iff, bodies, Grammar.productionsOf, List.pairwise_map, List.pairwise_filter,
    List.pairwise_iff_getElem]
  constructor
  · intro h
    push Not at h
    obtain ⟨i, j, hi, hj, hij, hpl, hql, s, hps, hqs⟩ := h
    simp only [List.length_zipIdx] at hi hj
    simp only [List.getElem_zipIdx, beq_iff_eq, hf.mem_firstSet] at hpl hql hps hqs
    exact ⟨i, j, _, _, s, hij, List.getElem?_eq_getElem hi, List.getElem?_eq_getElem hj, hpl, hql,
      hps, hqs⟩
  · rintro ⟨i, j, p, q, s, hij, hp, hq, hpl, hql, hps, hqs⟩ h
    obtain ⟨hi, rfl⟩ := List.getElem?_eq_some_iff.mp hp
    obtain ⟨hj, rfl⟩ := List.getElem?_eq_some_iff.mp hq
    have hapart := h i j (by simpa using hi) (by simpa using hj) hij
    simp only [List.getElem_zipIdx, beq_iff_eq, hf.mem_firstSet] at hapart
    exact hapart hpl hql s hps hqs

theorem mem_found_firstFirst (hf : First.Exact g firsts) :
    firstFirst (g.nameOf (.nonTerminal nt)) ∈ found g firsts follows nt ↔ g.SharesFirst nt := by
  rw [← anyShared_bodies_iff hf, found, List.mem_append]
  by_cases hfirst : anyShared (bodies g firsts nt) = true
  · simp [hfirst]
  · simp [hfirst]

theorem mem_found_firstFollow (hf : First.Exact g firsts) (hw : Follow.Exact g follows) :
    firstFollow (g.nameOf (.nonTerminal nt)) ∈ found g firsts follows nt ↔ g.SharesFollow nt := by
  have hshares : (.empty ∈ firsts.entry nt ∧ !(firsts.entry nt).disjoint (follows.entry nt)) ↔
      g.SharesFollow nt := by
    have hempty : .empty ∈ firsts.entry nt ↔ g.Derives [.nonTerminal nt] [] := hf.mem_entry
    simp [Grammar.SharesFollow, hempty, ← Bool.not_eq_true, SignSet.disjoint_iff, hf.mem_entry,
      hw.mem_entry]
  rw [← hshares, found, List.mem_append]
  split
  · simp
  · simp

/-! ## Warnings and the table -/

/-- The conflict that stops a compilation is warned of at its own non-terminal. -/
theorem found_of_firstConflict (hf : First.Exact g firsts) (hw : Follow.Exact g follows)
    {i j : Nat} {p q : Production α} {x : Sign} (h : g.FirstConflict i j p q x) :
    firstFirst (g.nameOf (.nonTerminal q.left)) ∈ found g firsts follows q.left ∨
      firstFollow (g.nameOf (.nonTerminal q.left)) ∈ found g firsts follows q.left := by
  rw [mem_found_firstFirst hf, mem_found_firstFollow hf hw]
  obtain ⟨i', hi', p', q', hp', hq', hleft, -, hpx, hqx⟩ := h.contests
  obtain rfl : q = q' := Option.some.inj (h.later.symm.trans hq')
  exact Grammar.shares_of_claims hi' hp' hq' hleft hpx hqx

theorem firstFollow_not_found (hg : g.Valid) (hf : First.Exact g firsts)
    (hw : Follow.Exact g follows) (hagree : g.ClaimsAgree) (nt : Nat) :
    firstFollow (g.nameOf (.nonTerminal nt)) ∉ found g firsts follows nt := by
  rw [mem_found_firstFollow hf hw]
  exact hagree.not_sharesFollow hg nt

/-- What is warned of all the same is a repeated production, or productions that vanish where
nothing follows. -/
theorem repeated_or_unfollowed (hf : First.Exact g firsts) (hw : Follow.Exact g follows)
    (hagree : g.ClaimsAgree) (hnt : nt < g.nonTerminals.length)
    (h : firstFirst (g.nameOf (.nonTerminal nt)) ∈ found g firsts follows nt) :
    (∃ (i j : Nat) (p q : Production α), i < j ∧ g.productions[i]? = some p ∧
      g.productions[j]? = some q ∧ p.left = nt ∧ p.SameShape q) ∨ follows.at? nt = .ok ∅ := by
  refine (hagree.sharesFirst ((mem_found_firstFirst hf).mp h)).imp_right fun hnone => ?_
  rw [Family.at?_eq (hw.length_eq.symm ▸ hnt)]
  refine congrArg Except.ok (SignSet.ext fun s => ?_)
  rw [hw.mem_entry]
  exact iff_of_false (hnone s) (SignSet.not_mem_empty s)

end Overlap

/-! ## Results -/

/-- The non-terminal of the conflict that stops a compilation was warned of. A compilation that
succeeds warns of no first and follow set, and of first sets only where a production is repeated or
the follow set is empty. -/
theorem warnings_agree (hg : g.validate = .ok ()) :
    ∃ firsts passes follows passes', First.compute g = .ok (firsts, passes) ∧
      Follow.compute g firsts = .ok (follows, passes') ∧
      ∃ warnings : Nat → List Overlap,
        (∀ nt < g.nonTerminals.length,
          Overlap.ofNonTerminal g firsts follows nt = .ok (warnings nt)) ∧
        Overlap.ofGrammar g firsts follows =
          .ok ((List.range g.nonTerminals.length).flatMap warnings) ∧
        (∀ fault, Table.fill g firsts follows = .error fault → ∃ i j p q x,
          g.FirstConflict i j p q x ∧
          fault = .conflict (g.nameOf (.nonTerminal q.left)) (g.nameOf x) (g.textOf p) (g.textOf q) ∧
          (.firstFirst (g.nameOf (.nonTerminal q.left)) ∈ warnings q.left ∨
            .firstFollow (g.nameOf (.nonTerminal q.left)) ∈ warnings q.left)) ∧
        ∀ c, Compiled.ofGrammar g = .ok c →
          c.overlaps = (List.range g.nonTerminals.length).flatMap warnings ∧
          ∀ nt < g.nonTerminals.length, .firstFollow (g.nameOf (.nonTerminal nt)) ∉ warnings nt ∧
          (.firstFirst (g.nameOf (.nonTerminal nt)) ∈ warnings nt →
            (∃ (i j : Nat) (p q : Production α), i < j ∧ g.productions[i]? = some p ∧
              g.productions[j]? = some q ∧ p.left = nt ∧ p.SameShape q) ∨
            follows.at? nt = .ok ∅) := by
  have hv := Grammar.validate_eq_ok_iff.mp hg
  obtain ⟨firsts, passes, hfok, -, hf⟩ := First.compute_exact hv
  obtain ⟨follows, passes', hwok, -, hw⟩ := Follow.compute_exact hv hf
  refine ⟨firsts, passes, follows, passes', hfok, hwok, Overlap.found g firsts follows,
    fun nt hnt => Overlap.ofNonTerminal_eq hv hf.length_eq hw.length_eq hnt,
    Overlap.ofGrammar_eq hv hf.length_eq hw.length_eq, ?_, ?_⟩
  · intro fault herr
    rcases Table.fill_cases hv hf hw with ⟨t, hok⟩ | ⟨i, j, p, q, x, hfirst, hfault⟩
    · cases hok.symm.trans herr
    · exact ⟨i, j, p, q, x, hfirst, Except.error.inj (herr.symm.trans hfault),
        Overlap.found_of_firstConflict hf hw hfirst⟩
  · intro c hc
    have hagree := ((Compiled.exists_eq_ok_iff g).mp ⟨c, hc⟩).2
    rw [Compiled.ofGrammar_of_compute hv hfok hwok hf hw] at hc
    obtain ⟨t, -, rfl⟩ := map_eq_ok hc
    refine ⟨rfl, fun nt hnt => ⟨Overlap.firstFollow_not_found hv hf hw hagree nt, fun hfound => ?_⟩⟩
    exact Overlap.repeated_or_unfollowed hf hw hagree hnt hfound

/-- `S -> A a`, `A -> B`, `B -> a | empty`: the one production of `A` cannot conflict, what it leads
to does. -/
def buried : Grammar Unit where
  terminals := ["a"]
  nonTerminals := ["S", "A", "B"]
  productions := [{ left := 0, right := [.nonTerminal 1, .terminal 0] },
    { left := 1, right := [.nonTerminal 2] }, { left := 2, right := [.terminal 0] },
    { left := 2, right := [] }]
  start := 0

theorem warnings_agree_buried : buried.validate = .ok () ∧
    ∃ firsts passes follows passes' overlaps, First.compute buried = .ok (firsts, passes) ∧
      Follow.compute buried firsts = .ok (follows, passes') ∧
      Overlap.ofGrammar buried firsts follows = .ok overlaps ∧
      Table.fill buried firsts follows = .error (.conflict "B" "a" "B -> a" "B -> empty") ∧
      (.firstFirst "B" ∈ overlaps ∨ .firstFollow "B" ∈ overlaps) := by
  have hvalid : buried.validate = .ok () := rfl
  obtain ⟨firsts, passes, follows, passes', hfok, hwok, warnings, -, hall, hconflict, -⟩ :=
    warnings_agree hvalid
  have hfill : Table.fill buried firsts follows =
      .error (.conflict "B" "a" "B -> a" "B -> empty") := by
    have hrun : (First.compute buried >>= fun r => Follow.compute buried r.1 >>= fun r' =>
        Table.fill buried r.1 r'.1) = .error (.conflict "B" "a" "B -> a" "B -> empty") := by
      decide +kernel
    simpa only [hfok, hwok, bind, Except.bind] using hrun
  obtain ⟨i, j, p, q, x, hfirst, hfault, hwarned⟩ := hconflict _ hfill
  obtain ⟨hname, -⟩ := GrammarFault.conflict.inj hfault
  rw [← hname] at hwarned
  have hq := (Grammar.validate_eq_ok_iff.mp hvalid).left_lt q (List.mem_of_getElem? hfirst.later)
  have hmem : ∀ o ∈ warnings q.left,
      o ∈ (List.range buried.nonTerminals.length).flatMap warnings :=
    fun o ho => List.mem_flatMap.mpr ⟨q.left, List.mem_range.mpr hq, ho⟩
  exact ⟨hvalid, firsts, passes, follows, passes', _, hfok, hwok, hall, hfill,
    hwarned.imp (hmem _) (hmem _)⟩

end PredictiveParsing
