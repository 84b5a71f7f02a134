import PredictiveParsing.Proofs.Cminus.Duties
import PredictiveParsing.Proofs.Cminus.Safety

/-!
# Failures and pools of C-minus

With any table that fits, a run follows a course of the grammar, and on a course every production
keeps to its contract (`Contract.keeps_run`).

* `compile_error_blames`: a program that is rejected is to blame;
* `sound_of_reached`: pools are sound, also after runs that failed.
-/

namespace PredictiveParsing.Cminus

open Sign (nonTerminal)

theorem blamed_of_refuses {f : Failure} (h : resolved.Refuses f) (seen : List Token) :
    Blamed seen f := by
  cases h with
  | unexpected text line => exact trivial
  | arity hp hlength => exact absurd (slots_resolved _ hp) hlength

section Run

variable {t : Table} (ht : t.Fits resolved) (tokens : List Token) (pool : Pool)

include ht

/-- A run is a walk over a course of the tokens that it takes. -/
theorem exists_course_of_run : ∃ (T : Course Action) (after : List Token) (r : Except Failure Unit),
    T.Grows resolved ∧ T.roots = [nonTerminal resolved.start] ∧
      T.tokens = tokens.take ((Machine.mk resolved t semantics).run tokens pool).taken ∧
      T.walk semantics Tree.root [none] ((Machine.mk resolved t semantics).start pool).workspace =
        (r, ⟨((Machine.mk resolved t semantics).run tokens pool).tree,
          ((Machine.mk resolved t semantics).run tokens pool).pool⟩) ∧
      Machine.Closes after r ((Machine.mk resolved t semantics).run tokens pool).verdict := by
  obtain ⟨n, c', hends, hworkspace, hhistory⟩ := Machine.exists_ends_run
    (Machine.run_ends_of_ranked (m := ⟨resolved, t, semantics⟩) local_semantics valid_resolved ht
      ranked_resolved tokens pool)
  obtain ⟨T, after, r, hroots, hT, htokens, hwalk, hcloses, htaken⟩ :=
    hends.exists_course_of_start local_semantics valid_resolved ht
  refine ⟨T, after, r, hT, hroots, ?_, hworkspace ▸ hwalk, hcloses⟩
  have hlength : ((Machine.mk resolved t semantics).run tokens pool).taken = T.tokens.length := by
    rw [Run.taken, ← hhistory, List.countP_reverse]
    exact htaken
  rw [hlength, htokens, List.take_left]

variable {pool}

/-- A run keeps to a contract that all productions meet, also when it fails. -/
theorem Contract.keeps_run {C : Contract} (hmeets : ∀ p ∈ resolved.productions, C.Meets p)
    (hrefuses : ∀ f, resolved.Refuses f → ∀ seen, C.blames seen f) (hpool : C.holds [] pool)
    (hpre : C.pre resolved.start {} ⟨{}, pool, []⟩) :
    C.holds (tokens.take ((Machine.mk resolved t semantics).run tokens pool).taken)
        ((Machine.mk resolved t semantics).run tokens pool).pool ∧
      ∀ f, ((Machine.mk resolved t semantics).run tokens pool).verdict = .rejected f →
        C.blames (tokens.take ((Machine.mk resolved t semantics).run tokens pool).taken) f := by
  obtain ⟨T, after, r, hT, hroots, htokens, hwalk, hcloses⟩ := exists_course_of_run ht tokens pool
  have hplaced : Placed {} ((Machine.mk resolved t semantics).start pool).workspace.tree none []
      Tree.root T.roots.length := by
    rw [hroots]
    exact placed_start pool
  have hslots : [(none : Option Action)].length = T.roots.length := by
    rw [hroots]
    rfl
  have hvisits : C.Visits T.roots [none] {} pool [] fun _ _ _ => True := by
    rw [hroots]
    exact ⟨hpool, hpre, fun _ _ _ _ _ => trivial⟩
  have hmirrors := walk_follow hT hplaced hslots pool
  have hkeeps := sound (fun p hp _ => hmeets p hp) hrefuses hT hslots hpool hvisits
  have hstart : ((Machine.mk resolved t semantics).start pool).workspace =
    ⟨((Machine.mk resolved t semantics).start pool).workspace.tree, pool⟩ := rfl
  rw [List.nil_append] at hkeeps
  rw [← htokens]
  rw [hstart] at hwalk
  generalize (Machine.mk resolved t semantics).run tokens pool = run at hwalk hcloses ⊢
  obtain ⟨verdict, tree, pool₁, history⟩ := run
  -- What the course evaluates to is what the run leaves and fails with.
  revert hkeeps hmirrors
  unfold Mirrors
  rcases (follow T {} [none]).on pool with ⟨failure | as, pool'⟩
  · rintro ⟨t', ht'⟩ ⟨hholds, hblames⟩
    cases hwalk.symm.trans ht'
    refine ⟨hholds, ?_⟩
    rintro f rfl
    cases hcloses
    exact hblames
  · rintro ⟨t', ht', -⟩ ⟨hholds, -⟩
    cases hwalk.symm.trans ht'
    refine ⟨hholds, ?_⟩
    rintro f rfl
    cases hcloses
    exact hrefuses _ (.unexpected _ _) _

end Run

theorem Compiler.Made.keeps_run {c : Compiler} (hc : c.Made) (tokens : List Token) {pool : Pool}
    {C : Contract} (hmeets : ∀ p ∈ resolved.productions, C.Meets p)
    (hrefuses : ∀ f, resolved.Refuses f → ∀ seen, C.blames seen f) (hpool : C.holds [] pool)
    (hpre : C.pre resolved.start {} ⟨{}, pool, []⟩) :
    C.holds (tokens.take (c.machine.run tokens pool).taken) (c.machine.run tokens pool).pool ∧
      ∀ f, (c.machine.run tokens pool).verdict = .rejected f →
        C.blames (tokens.take (c.machine.run tokens pool).taken) f := by
  obtain ⟨hgrammar, hfits⟩ := hc.fits
  obtain ⟨g, t, overlaps⟩ := c
  cases hgrammar
  exact Contract.keeps_run hfits tokens hmeets hrefuses hpool hpre

/-- A run leaves a sound pool, and what it rejects is to blame. -/
theorem Compiler.Made.run_keeps {c : Compiler} (hc : c.Made) (tokens : List Token) {pool : Pool}
    (hpool : pool.Sound) : (c.machine.run tokens pool).pool.Sound ∧
      ∀ f, (c.machine.run tokens pool).verdict = .rejected f →
        Blamed (tokens.take (c.machine.run tokens pool).taken) f := by
  have hmeets : ∀ p ∈ resolved.productions, duties.Meets p := by
    intro p hp
    obtain ⟨f, -, rfl⟩ := exists_form hp
    exact meets_duties f
  exact hc.keeps_run tokens (C := duties) hmeets (fun _ => blamed_of_refuses) hpool
    ⟨rfl, rfl, trivial⟩

theorem Compiler.compile_eq_some_error_iff {c : Compiler} {tokens : List Token} {f : Failure} :
    c.compile tokens = some (.error f) ↔ (c.run tokens).verdict = .rejected f := by
  rw [compile, Run.result?]
  cases (c.run tokens).verdict <;> simp [Except.map]

/-- What a program is rejected for: a token that fits nowhere, or a fault that is told with the line
of a token which was taken before. -/
theorem compile_error_blames {c : Compiler} (hc : c.Made) {tokens : List Token} {f : Failure}
    (h : c.compile tokens = some (.error f)) :
    (∃ text line, f = .unexpected text line) ∨
      ∃ fault, ∃ token ∈ tokens.take (c.run tokens).taken,
        fault.OfProgram ∧ f = .semantic fault (some token.line) := by
  have hrejected := Compiler.compile_eq_some_error_iff.mp h
  have hblamed := (hc.run_keeps tokens Pool.sound_initial).2 f hrejected
  cases f with
  | unexpected text line => exact .inl ⟨text, line, rfl⟩
  | semantic fault line =>
    obtain ⟨hfault, token, htoken, rfl⟩ := hblamed
    exact .inr ⟨fault, token, htoken, hfault, rfl⟩
  | grammar fault => exact hblamed.elim
  | arity production => exact hblamed.elim

def voidVariable : List Token := [⟨"void", "void", 1⟩, ⟨"id", "x", 2⟩, ⟨";", ";", 3⟩]

theorem compile_voidVariable : (Compiler.mk resolved editedTable []).compile voidVariable =
    some (.error (.semantic (.voidVariable "x") (some 2))) := by
  decide +kernel

/-- The line of the name is told, while the fault is found behind it. -/
theorem compile_error_blames_voidVariable :
    (Compiler.mk resolved editedTable []).Made ∧
      (Compiler.mk resolved editedTable []).compile voidVariable =
        some (.error (.semantic (.voidVariable "x") (some 2))) ∧
      ((∃ text line, Failure.semantic (.voidVariable "x") (some 2) = .unexpected text line) ∨
        ∃ fault, ∃ token ∈ voidVariable.take
            ((Compiler.mk resolved editedTable []).run voidVariable).taken,
          fault.OfProgram ∧
            Failure.semantic (.voidVariable "x") (some 2) = .semantic fault (some token.line)) :=
  ⟨.ofDoc ofDoc_editedDoc, compile_voidVariable,
    compile_error_blames (.ofDoc ofDoc_editedDoc) compile_voidVariable⟩

/-! ## Histories -/

/-- The pools that one run after the other can come to, with whatever tables and tokens. -/
inductive Reached : Pool → Prop
  | initial : Reached Pool.initial
  | run {pool : Pool} (h : Reached pool) {c : Compiler} (hc : c.Made) (tokens : List Token) :
      Reached (c.machine.run tokens pool).pool

/-- Whatever was parsed before and however it ended, the pool is sound. -/
theorem sound_of_reached {pool : Pool} (h : Reached pool) : pool.Sound := by
  induction h with
  | initial => exact Pool.sound_initial
  | run _ hc tokens ih => exact (hc.run_keeps tokens ih).1

/-- A function whose second parameter has the name of the first. -/
def brokenOff : List Token :=
  [⟨"int", "int", 1⟩, ⟨"id", "f", 1⟩, ⟨"(", "(", 1⟩, ⟨"int", "int", 1⟩, ⟨"id", "a", 1⟩, ⟨",", ",", 1⟩,
   ⟨"int", "int", 2⟩, ⟨"id", "a", 2⟩, ⟨")", ")", 2⟩]

/-- A function that calls it with one argument. -/
def caller : List Token :=
  [⟨"void", "void", 1⟩, ⟨"id", "g", 1⟩, ⟨"(", "(", 1⟩, ⟨")", ")", 1⟩, ⟨"\x7b", "\x7b", 1⟩,
   ⟨"id", "f", 2⟩, ⟨"(", "(", 2⟩, ⟨"num", "1", 2⟩, ⟨")", ")", 2⟩, ⟨";", ";", 2⟩, ⟨"\x7d", "\x7d", 3⟩]

theorem runs_brokenOff_caller : (Compiled.ofGrammar resolved).map (fun c =>
    let first := (Machine.mk resolved c.table semantics).run brokenOff Pool.initial
    let second := (Machine.mk resolved c.table semantics).run caller first.pool
    (first.verdict, second.verdict, second.pool.functions.entries.map Symbol.name)) =
      .ok (.rejected (.semantic (.redeclaredParameter "a") (some 2)), .accepted,
        ["input", "output", "f", "g"]) := by
  decide +kernel

/-- What was declared before a failure stays for the next run. -/
theorem sound_of_reached_caller : ∃ (c : Compiler) (pool : Pool), Compiler.ofGrammar = .ok c ∧
    (c.machine.run brokenOff Pool.initial).verdict =
      .rejected (.semantic (.redeclaredParameter "a") (some 2)) ∧
    (c.machine.run caller (c.machine.run brokenOff Pool.initial).pool).pool = pool ∧
    pool.functions.entries.map Symbol.name = ["input", "output", "f", "g"] ∧
    Reached pool ∧ pool.Sound := by
  obtain ⟨compiled, hc, hruns⟩ := Compiler.exists_ofGrammar_of_map runs_brokenOff_caller
  obtain ⟨hfirst, hsecond⟩ := Prod.mk.inj hruns
  have hmade := Compiler.Made.ofGrammar hc
  have hreached := (Reached.initial.run hmade brokenOff).run hmade caller
  exact ⟨_, _, hc, hfirst, rfl, (Prod.mk.inj hsecond).2, hreached, sound_of_reached hreached⟩

end PredictiveParsing.Cminus
