import PredictiveParsing.Cminus.Compiler
import PredictiveParsing.Proofs.Cminus.Definitions
import PredictiveParsing.Proofs.Cminus.Reading

/-!
# The compiler accepts the legal programs

* `compile_iff_legal`: there is a compiler, and it always has an answer, which is a program
  just when the tokens are a sentence and spell a legal source.

A run on a sentence is a walk over its derivation tree, the walk computes what `eval` does, and the
evaluation of the tree of a source decides whether the source is legal.
-/

namespace PredictiveParsing.Cminus

/-! ## Runs and evaluations -/

theorem local_semantics : semantics.Local := by
  intro action id effect h w
  cases h
  rw [Action.effect_eq]
  cases action.judge (Site.of w id) with
  | ok change => exact ⟨change.attrs, rfl⟩
  | error complaint => exact ⟨w.tree.attrs id, (w.tree.setAttrs_attrs id).symm⟩

variable {c : Compiled} {F : Forest Action}

/-- The root when nothing has been done. -/
theorem placed_start {t : Table} (pool : Pool) :
    Placed {} ((Machine.mk resolved t semantics).start pool).workspace.tree none [] Tree.root 1 := by
  refine ⟨?_, ?_, ?_, ?_, rfl, rfl, rfl⟩
  · rintro (_ | _ | id) parent h
    · cases h
    · cases h
    · cases h
  · rintro (_ | j) hj
    · exact ⟨.nonTerminal Place.program, rfl⟩
    · omega
  · rintro parent ⟨⟩
  · rintro i ⟨⟩

/-- A run on a sentence does what the evaluation of its tree does. -/
theorem run_of_eval (hc : c.Exact resolved) (hF : F.Grows resolved)
    (hroots : F.roots = [.nonTerminal resolved.start]) :
    match eval F {} [none] Pool.initial with
    | .ok (_, pool) =>
      ((Machine.mk resolved c.table semantics).run F.tokens Pool.initial).verdict = .accepted ∧
        ((Machine.mk resolved c.table semantics).run F.tokens Pool.initial).pool = pool
    | .error complaint =>
      ((Machine.mk resolved c.table semantics).run F.tokens Pool.initial).verdict =
        .rejected complaint.failure := by
  have hplaced : Placed {} ((Machine.mk resolved c.table semantics).start
      Pool.initial).workspace.tree none [] Tree.root F.roots.length := by
    rw [hroots]
    exact placed_start Pool.initial
  have hfitted : F.Everywhere fun p _ => p.slots.length = p.right.length :=
    hF.everywhere fun p hp _ _ _ _ => slots_resolved p hp
  have hmirrors := walk_eval hF hfitted hplaced [none] (by rw [hroots]; rfl) Pool.initial
  have hrun := fun r w hwalk => @Machine.run_eq_walk _ _ _ hc distinctShapes_resolved _
    local_semantics _ hF hfitted hroots Pool.initial r w hwalk
  rcases he : eval F {} [none] Pool.initial with complaint | ⟨as, pool⟩
  · rw [he] at hmirrors
    obtain ⟨w, hwalk⟩ := hmirrors
    exact (hrun _ _ hwalk).1
  · rw [he] at hmirrors
    obtain ⟨t', hwalk⟩ := hmirrors
    obtain ⟨hverdict, -, hpool⟩ := hrun _ _ hwalk
    exact ⟨hverdict, hpool⟩

/-- A run on a sentence is accepted just when the evaluation of its tree succeeds. -/
theorem accepted_iff_eval (hc : c.Exact resolved) (hF : F.Grows resolved)
    (hroots : F.roots = [.nonTerminal resolved.start]) :
    ((Machine.mk resolved c.table semantics).run F.tokens Pool.initial).verdict = .accepted ↔
      ∃ b, eval F {} [none] Pool.initial = .ok b := by
  have hrun := run_of_eval hc hF hroots
  rcases he : eval F {} [none] Pool.initial with complaint | b
  · rw [he] at hrun
    rw [hrun]
    constructor
    · rintro ⟨⟩
    · rintro ⟨b, ⟨⟩⟩
  · rw [he] at hrun
    exact ⟨fun _ => ⟨b, rfl⟩, fun _ => hrun.1⟩

/-- A source has the one non-terminal as its root that a run starts with. -/
theorem Source.roots_of_map (source : Source) (hsource : F.map Token.bare = source.tree) :
    F.roots = [.nonTerminal resolved.start] := by
  rw [← Forest.roots_map (f := Token.bare), hsource, source.roots_tree]
  rfl

/-- A run on what a source spells is accepted just when the source is legal. -/
theorem accepted_iff_legal (hc : c.Exact resolved) (hF : F.Grows resolved) {source : Source}
    (hsource : F.map Token.bare = source.tree) :
    ((Machine.mk resolved c.table semantics).run F.tokens Pool.initial).verdict = .accepted ↔
      source.Legal := by
  rw [accepted_iff_eval hc hF (source.roots_of_map hsource),
    decides_iff (source.decides_legal hsource)]

/-- A run that is accepted has made the declarations of its source. -/
theorem pool_of_accepted (hc : c.Exact resolved) (hF : F.Grows resolved) {source : Source}
    (hsource : F.map Token.bare = source.tree)
    (h : ((Machine.mk resolved c.table semantics).run F.tokens Pool.initial).verdict = .accepted) :
    ((Machine.mk resolved c.table semantics).run F.tokens Pool.initial).pool =
      declareAll Pool.initial source.bindings := by
  have hrun := run_of_eval hc hF (source.roots_of_map hsource)
  have hdecides := source.decides_legal hsource
  rcases he : eval F {} [none] Pool.initial with complaint | ⟨as, pool⟩
  · rw [he] at hrun
    cases h.symm.trans hrun
  · rw [he] at hrun hdecides
    exact hrun.2.trans hdecides.2

/-! ## The compiler -/

theorem ofGrammar_of_compiled {c : Compiled} (h : Compiled.ofGrammar resolved = .ok c) :
    Compiler.ofGrammar = .ok ⟨resolved, c.table, c.overlaps⟩ := by
  rw [Compiler.ofGrammar, mapError_bind_of_eq_ok grammar_eq, mapError_bind_of_eq_ok h]
  rfl

theorem exists_ofGrammar : ∃ c, Compiled.ofGrammar resolved = .ok c ∧
    Compiler.ofGrammar = .ok ⟨resolved, c.table, c.overlaps⟩ := by
  have hmap : (Compiled.ofGrammar resolved).map (fun _ => ()) = .ok () := by decide +kernel
  obtain ⟨c, hc, -⟩ := map_eq_ok hmap
  exact ⟨c, hc, ofGrammar_of_compiled hc⟩

/-- There is a compiler for C-minus. For every list of tokens it has an answer, and this is a
program just when the tokens are a sentence of the grammar and spell a source that obeys the static
rules. -/
theorem compile_iff_legal (tokens : List Token) :
    ∃ c r, Compiler.ofGrammar = .ok c ∧ c.compile tokens = some r ∧
      ((∃ program, r = .ok program) ↔
        (∃ g, grammar = .ok g ∧ g.Sentence tokens) ∧
          ∃ source : Source, source.Spells tokens ∧ source.Legal) := by
  obtain ⟨c, hc, hcompiler⟩ := exists_ofGrammar
  have hexact := Compiled.exact_of_ofGrammar hc
  have hlegal : ((Machine.mk resolved c.table semantics).run tokens Pool.initial).verdict =
      .accepted ↔ (∃ g, grammar = .ok g ∧ g.Sentence tokens) ∧
        ∃ source : Source, source.Spells tokens ∧ source.Legal := by
    constructor
    · intro hv
      have hsentence := Machine.sentence_of_accepted hexact local_semantics hv
      obtain ⟨F, hF, hroots, rfl⟩ := Forest.sentence_iff_exists_forest.mp hsentence
      obtain ⟨source, hsource⟩ := exists_source hF hroots
      exact ⟨⟨resolved, grammar_eq, hsentence⟩, source, spells_of_map_eq hsource,
        (accepted_iff_legal hexact hF hsource).mp hv⟩
    · rintro ⟨-, source, hspells, hsource⟩
      obtain ⟨F, hmap, rfl, hF⟩ := hspells.exists_forest
      exact (accepted_iff_legal hexact hF hmap).mpr hsource
  rw [← hlegal]
  have hcases := Machine.run_accepted_or_rejected hexact local_semantics tokens Pool.initial
  have hcompile : (⟨resolved, c.table, c.overlaps⟩ : Compiler).run tokens =
      (Machine.mk resolved c.table semantics).run tokens Pool.initial := rfl
  generalize (Machine.mk resolved c.table semantics).run tokens Pool.initial = run at *
  rcases hcases with hv | ⟨f, hv⟩
  · refine ⟨_, .ok ⟨run.tree, run.pool⟩, hcompiler, ?_, fun _ => hv, fun _ => ⟨_, rfl⟩⟩
    rw [Compiler.compile, hcompile, Run.result?, hv]
    rfl
  · refine ⟨_, .error f, hcompiler, ?_, ?_, ?_⟩
    · rw [Compiler.compile, hcompile, Run.result?, hv]
      rfl
    · rintro ⟨program, ⟨⟩⟩
    · rw [hv]
      rintro ⟨⟩

end PredictiveParsing.Cminus
