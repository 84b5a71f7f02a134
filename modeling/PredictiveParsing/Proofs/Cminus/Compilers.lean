import PredictiveParsing.Proofs.Cminus.Legality
import PredictiveParsing.Proofs.Table.Fitting

/-!
# Compilers with any table

The C-minus compiler has a table that was compiled or one that was loaded. Either way its grammar is
the same and its table fits (`Made.fits`); the table's choices are not known.
-/

namespace PredictiveParsing.Cminus.Compiler

theorem ofDoc_eq_ok_iff {d : Doc} {c : Compiler} :
    ofDoc d = .ok c ↔ ∃ t, Table.load resolved d = .ok t ∧ c = ⟨resolved, t, []⟩ := by
  rw [ofDoc, grammar_eq]
  cases h : Table.load resolved d with
  | error fault => simp [Except.mapError, bind, Except.bind, h]
  | ok t => simp [Except.mapError, bind, Except.bind, pure, Except.pure, h, eq_comm]

theorem compile_eq_some_ok_iff {c : Compiler} {tokens : List Token} {program : Program} :
    c.compile tokens = some (.ok program) ↔
      (c.run tokens).result? = some (.ok program.tree) ∧ (c.run tokens).pool = program.symbols := by
  obtain ⟨tree, symbols⟩ := program
  rw [compile]
  rcases (c.run tokens).result? with _ | _ | _ <;> simp [Except.map]

/-- The compilers that there are: with the compiled table, and with the table of a document. -/
inductive Made : Compiler → Prop
  | ofGrammar {c : Compiler} (h : Compiler.ofGrammar = .ok c) : Made c
  | ofDoc {d : Doc} {c : Compiler} (h : Compiler.ofDoc d = .ok c) : Made c

theorem Made.fits {c : Compiler} (h : c.Made) : c.grammar = resolved ∧ c.table.Fits resolved := by
  cases h with
  | ofGrammar h =>
    obtain ⟨compiled, hcompiled, hc⟩ := exists_ofGrammar
    cases h.symm.trans hc
    exact ⟨rfl, (Compiled.exact_of_ofGrammar hcompiled).table.fits⟩
  | ofDoc h =>
    obtain ⟨t, ht, rfl⟩ := ofDoc_eq_ok_iff.mp h
    exact ⟨rfl, Table.fits_of_load ht⟩

/-- What is computed from the compiled table is what the compiler's own table gives. -/
theorem exists_ofGrammar_of_map {β : Type} {f : Compiled → β} {b : β}
    (h : (Compiled.ofGrammar resolved).map f = .ok b) :
    ∃ compiled, ofGrammar = .ok ⟨resolved, compiled.table, compiled.overlaps⟩ ∧ f compiled = b := by
  obtain ⟨compiled, hcompiled, hc⟩ := exists_ofGrammar
  obtain ⟨compiled', hcompiled', hb⟩ := map_eq_ok h
  cases hcompiled.symm.trans hcompiled'
  exact ⟨compiled, hc, hb⟩

end PredictiveParsing.Cminus.Compiler
