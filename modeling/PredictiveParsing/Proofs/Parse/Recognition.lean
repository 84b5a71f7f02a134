import Mathlib.Order.Bounds.Defs
import PredictiveParsing.Proofs.Parse.Sentence

/-!
# The parser recognizes the language of its grammar

The main results on a machine with a compiled table and without actions:

* `run_recognizes`: it accepts exactly the sentences, and otherwise fails on a token or the end
  mark;
* `run_ends`: its loop ends by itself on every input, whatever the grammar recurses on, and the run
  stops where the loop does;
* `run_fails_behind_viable`: it fails right behind the longest viable prefix.

The steps of `Machine.run` are counted; `Machine.Ends` is the loop without a count.
-/

namespace PredictiveParsing

variable {α : Type} {g : Grammar α} {c : Compiled}

/-! ## The loop -/

namespace Machine

/-- The loop ends after so many steps. It looks at the first of the rest of the input, or at the end
mark `last` behind it, and drops what it took. -/
inductive Ends (m : Machine α) (last : Lookahead) :
    Nat → List Lookahead → Config α → Verdict → Config α → Prop
  | ended {rest : List Lookahead} {c c' : Config α} {v : Verdict}
      (h : m.step (rest.headD last) c = .ended v c') : Ends m last 1 rest c v c'
  | moved {n : Nat} {rest : List Lookahead} {c c₁ c' : Config α} {v : Verdict}
      (h : m.step (rest.headD last) c = .moved c₁) (h' : Ends m last n rest c₁ v c') :
      Ends m last (n + 1) rest c v c'
  | taken {n : Nat} {current : Lookahead} {rest : List Lookahead} {c c₁ c' : Config α} {v : Verdict}
      (h : m.step current c = .taken c₁) (h' : Ends m last n rest c₁ v c') :
      Ends m last (n + 1) (current :: rest) c v c'

variable {m : Machine α} {last : Lookahead}

theorem Ends.of_advance_ended {rest : List Lookahead} {bound : Nat} {c c' : Config α} {v : Verdict}
    (h : m.advance (rest.headD last) bound c = .ended v c') (hv : v ≠ .endless) :
    ∃ n, m.Ends last n rest c v c' := by
  induction bound generalizing c with
  | zero =>
    cases h
    exact absurd rfl hv
  | succ bound ih =>
    rw [advance] at h
    split at h
    next c₁ hs =>
      obtain ⟨n, hn⟩ := ih h
      exact ⟨n + 1, .moved hs hn⟩
    next => exact ⟨1, .ended h⟩

theorem Ends.of_advance_taken {current : Lookahead} {rest : List Lookahead} {bound n : Nat}
    {c c₁ c' : Config α} {v : Verdict} (h : m.advance current bound c = .taken c₁)
    (h' : m.Ends last n rest c₁ v c') : ∃ n, m.Ends last n (current :: rest) c v c' := by
  induction bound generalizing c with
  | zero => cases h
  | succ bound ih =>
    rw [advance] at h
    split at h
    next c₂ hs =>
      obtain ⟨k, hk⟩ := ih h
      exact ⟨k + 1, .moved hs hk⟩
    next => exact ⟨n + 1, .taken h h'⟩

/-- Where the counted run stops before its count is used up, there the loop ends. -/
theorem Ends.of_goOn {patience : Nat} {rest : List Lookahead} {c c' : Config α} {v : Verdict}
    (h : m.goOn patience last rest c = (v, c')) (hv : v ≠ .endless) (hv' : v ≠ .astray) :
    ∃ n, m.Ends last n rest c v c' := by
  induction rest generalizing c with
  | nil =>
    rw [goOn] at h
    split at h
    next => exact absurd (congrArg Prod.fst h).symm hv
    next => exact absurd (congrArg Prod.fst h).symm hv'
    next he =>
      cases h
      exact Ends.of_advance_ended he hv
  | cons current rest ih =>
    rw [goOn] at h
    split at h
    next => exact absurd (congrArg Prod.fst h).symm hv
    next ht =>
      obtain ⟨n, hn⟩ := ih h
      exact Ends.of_advance_taken ht hn
    next he =>
      cases h
      exact Ends.of_advance_ended he hv

end Machine

/-! ## Results -/

/-- `S -> a S b | empty`, and an unproductive `L -> L a` that calls itself first. -/
def nested : Grammar Unit where
  terminals := ["a", "b"]
  nonTerminals := ["S", "L"]
  productions := [{ left := 0, right := [.terminal 0, .nonTerminal 0, .terminal 1] },
    { left := 0, right := [] }, { left := 1, right := [.nonTerminal 1, .terminal 0] }]
  start := 0

theorem nested_slots : ∀ p ∈ nested.productions, p.slots.length = p.right.length := by decide

theorem nested_compiles : ∃ c, Compiled.ofGrammar nested = .ok c ∧
    ((c.recognizer nested).run [⟨"a", "x", 3⟩] default).result? =
      some (.error (.unexpected "" 3)) := by
  have h : (Compiled.ofGrammar nested).map (fun c =>
      ((c.recognizer nested).run [⟨"a", "x", 3⟩] default).result?) =
        .ok (some (.error (.unexpected "" 3))) := by decide +kernel
  exact map_eq_ok h

/-- Accepting what the grammar derives, and a failure at a token or the end mark for the rest. -/
theorem run_recognizes (hc : Compiled.ofGrammar g = .ok c)
    (hslots : ∀ p ∈ g.productions, p.slots.length = p.right.length) (tokens : List Token)
    (pool : Pool) :
    ((∃ tree, ((c.recognizer g).run tokens pool).result? = some (.ok tree)) ↔
        g.Sentence tokens) ∧
      (¬ g.Sentence tokens → ∃ text line,
        ((c.recognizer g).run tokens pool).result? =
          some (.error (.unexpected text line))) := by
  have hj := justified_run (Compiled.exact_of_ofGrammar hc) tokens pool
  generalize hv : ((c.recognizer g).run tokens pool).verdict = v at hj
  simp only [Run.result?, hv]
  cases hj with
  | accepted hs => exact ⟨⟨fun _ => hs, fun _ => ⟨_, rfl⟩⟩, fun hn => absurd hs hn⟩
  | @rejected k hs =>
    refine ⟨⟨?_, fun h => absurd h hs.not_sentence⟩, fun _ => ?_⟩
    · rintro ⟨tree, h⟩
      cases h
    · obtain ⟨text, line, hf⟩ := failureAt_eq_unexpected tokens k
      exact ⟨text, line, by rw [hf]⟩
  | misfit hp hl => exact absurd (hslots _ hp) hl

theorem run_recognizes_nested : ∃ c, Compiled.ofGrammar nested = .ok c ∧
    ∃ tree, ((c.recognizer nested).run [⟨"a", "x", 1⟩, ⟨"b", "y", 1⟩] default).result? =
      some (.ok tree) := by
  obtain ⟨c, hc, -⟩ := nested_compiles
  have hinner : nested.Derives [.nonTerminal 0] [] :=
    Grammar.Derives.of_production (p := { left := 0, right := [] }) (by decide)
  have houter : nested.Derives [.nonTerminal 0] [.terminal 0, .nonTerminal 0, .terminal 1] :=
    Grammar.Derives.of_production
      (p := { left := 0, right := [.terminal 0, .nonTerminal 0, .terminal 1] }) (by decide)
  have hsentence : nested.Sentence [⟨"a", "x", 1⟩, ⟨"b", "y", 1⟩] :=
    ⟨[.terminal 0, .terminal 1], rfl, houter.trans
      (.append_left [.terminal 0] (hinner.append_right [.terminal 1]))⟩
  exact ⟨c, hc, (run_recognizes hc nested_slots _ default).1.mpr hsentence⟩

/-- The loop ends on every input, with the verdict that the run gives. -/
theorem run_ends (hc : Compiled.ofGrammar g = .ok c) (tokens : List Token) (pool : Pool) :
    ∃ n verdict c', (c.recognizer g).Ends (Lookahead.atEnd tokens) n
        (tokens.map (Lookahead.ofToken g)) ((c.recognizer g).start pool) verdict c' ∧
      ((c.recognizer g).run tokens pool).verdict = verdict ∧
      (verdict = .accepted ∨ ∃ f, verdict = .rejected f) := by
  have hj := justified_run (Compiled.exact_of_ofGrammar hc) tokens pool
  have hcases := hj.accepted_or_rejected
  have hne : ((c.recognizer g).run tokens pool).verdict ≠ .endless ∧
      ((c.recognizer g).run tokens pool).verdict ≠ .astray := by
    rcases hcases with hv | ⟨f, hv⟩
    · simp [hv]
    · simp [hv]
  obtain ⟨n, hn⟩ := Machine.Ends.of_goOn rfl hne.1 hne.2
  exact ⟨n, _, _, hn, rfl, hcases⟩

theorem run_ends_nested : ∃ c, Compiled.ofGrammar nested = .ok c ∧
    ∃ n verdict c', (c.recognizer nested).Ends ⟨some .pound, "", 3⟩ n [⟨some (.terminal 0), "x", 3⟩]
      ((c.recognizer nested).start default) verdict c' := by
  obtain ⟨c, hc, -⟩ := nested_compiles
  obtain ⟨n, verdict, c', hends, -⟩ := run_ends hc [⟨"a", "x", 3⟩] default
  exact ⟨c, hc, n, verdict, c', hends⟩

/-- A run fails right behind the longest prefix of the input that begins some sentential form. -/
theorem run_fails_behind_viable (hc : Compiled.ofGrammar g = .ok c)
    (hslots : ∀ p ∈ g.productions, p.slots.length = p.right.length) (tokens : List Token)
    (pool : Pool) {f : Failure}
    (hf : ((c.recognizer g).run tokens pool).result? = some (.error f)) :
    ∃ k, IsGreatest {k | k ≤ tokens.length ∧ g.Viable (tokens.take k)} k ∧
      f = failureAt tokens k := by
  have hj := justified_run (Compiled.exact_of_ofGrammar hc) tokens pool
  generalize hv : ((c.recognizer g).run tokens pool).verdict = v at hj
  simp only [Run.result?, hv] at hf
  cases hj with
  | accepted => cases hf
  | @rejected k hs =>
    cases hf
    refine ⟨k, ⟨⟨hs.le, hs.viable⟩, ?_⟩, rfl⟩
    rintro j ⟨hj, hviable⟩
    by_contra hlt
    refine hs.next (by omega) ?_
    have hsplit :
        tokens.take j = tokens.take (k + 1) ++ (tokens.drop (k + 1)).take (j - (k + 1)) := by
      rw [← List.take_add, Nat.add_sub_cancel' (by omega)]
    rw [hsplit] at hviable
    exact hviable.of_append
  | misfit hp hl => exact absurd (hslots _ hp) hl

theorem run_fails_behind_viable_nested :
    ∃ k, IsGreatest {k | k ≤ 1 ∧ nested.Viable (List.take k [⟨"a", "x", 3⟩])} k ∧
      Failure.unexpected "" 3 = failureAt [⟨"a", "x", 3⟩] k := by
  obtain ⟨c, hc, hf⟩ := nested_compiles
  exact run_fails_behind_viable hc nested_slots _ default hf

end PredictiveParsing
