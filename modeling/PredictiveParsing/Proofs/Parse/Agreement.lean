import PredictiveParsing.Proofs.Cminus.Compilers
import PredictiveParsing.Proofs.Parse.Course

/-!
# Tables that choose otherwise

A loaded table may choose any production of a non-terminal at any lookahead. What it accepts is
nevertheless a sentence, and the run has walked over a derivation tree of it. A grammar with a
compiled table has no other such tree, so the compiled table leads over the same one.

* `Machine.refines_of_fits`: what a machine with any fitting table accepts, the machine with the
  compiled table accepts with the same tree and pool;
* `load_refines`: so a loaded table can only reject more.
-/

namespace PredictiveParsing

/-- Every successful run of the first machine is one of the second, with the same tree and pool. -/
def Machine.Refines {α : Type} (m m' : Machine α) : Prop :=
  ∀ tokens pool tree, (m.run tokens pool).result? = some (.ok tree) →
    (m'.run tokens pool).result? = some (.ok tree) ∧
      (m'.run tokens pool).pool = (m.run tokens pool).pool

theorem Run.result?_eq_some_ok_iff {α : Type} {r : Run α} {tree : Tree} :
    r.result? = some (.ok tree) ↔ r.verdict = .accepted ∧ r.tree = tree := by
  rw [Run.result?]
  cases r.verdict <;> simp

namespace Machine

variable {α : Type}

/-- An accepted run has walked over a derivation tree of its input, whatever the table chose. -/
theorem exists_forest_of_accepted {m : Machine α} (hm : m.semantics.Local) (hg : m.grammar.Valid)
    (ht : m.table.Fits m.grammar) {tokens : List Token} {pool : Pool}
    (h : (m.run tokens pool).verdict = .accepted) :
    ∃ F : Forest α, F.Grows m.grammar ∧
      (F.Everywhere fun p _ => p.slots.length = p.right.length) ∧
      F.roots = [.nonTerminal m.grammar.start] ∧ F.tokens = tokens ∧
      F.walk m.semantics Tree.root [none] (m.start pool).workspace =
        (.ok (), ⟨(m.run tokens pool).tree, (m.run tokens pool).pool⟩) := by
  obtain ⟨n, c', hends, hw, -⟩ := exists_ends_run (.inl h)
  rw [h] at hends
  obtain ⟨T, after, r, hroots, hT, htokens, hwalk, hcloses, -⟩ :=
    hends.exists_course_of_start hm hg ht
  cases hcloses with
  | accepted hafter =>
    obtain ⟨F, rfl⟩ := Course.exists_forest hwalk
    rw [Course.roots_ofForest] at hroots
    rw [Course.tokens_ofForest, hafter, List.append_nil] at htokens
    rw [Course.walk_ofForest, hw] at hwalk
    obtain ⟨hF, hslots⟩ := Course.grows_ofForest.mp hT
    exact ⟨F, hF, hslots, hroots, htokens.symm, hwalk⟩

/-- A fitting table accepts no more than the compiled one, and with the same tree. -/
theorem refines_of_fits {g : Grammar α} {c : Compiled} (hc : Compiled.ofGrammar g = .ok c)
    (hshapes : g.DistinctShapes) {t : Table} (ht : t.Fits g) {s : Semantics α} (hs : s.Local) :
    (Machine.mk g t s).Refines ⟨g, c.table, s⟩ := by
  have hexact := Compiled.exact_of_ofGrammar hc
  intro tokens pool tree h
  rw [Run.result?_eq_some_ok_iff] at h ⊢
  obtain ⟨hv, rfl⟩ := h
  obtain ⟨F, hF, hslots, hroots, rfl, hwalk⟩ :=
    exists_forest_of_accepted (m := ⟨g, t, s⟩) hs hexact.valid ht hv
  have hwalk' : F.walk s Tree.root [none] ((Machine.mk g c.table s).start pool).workspace =
      (.ok (), _) := hwalk
  obtain ⟨hv', htree, hpool⟩ := run_eq_walk hexact hshapes hs hF hslots hroots hwalk'
  exact ⟨⟨hv', htree⟩, hpool⟩

end Machine

/-! ## Results -/

/-- Where a table was compiled and no two productions differ in their actions only, what a run with
a loaded table accepts, the run with the compiled one accepts with the same tree and pool. So does
the compiler for C-minus. -/
theorem load_refines :
    (∀ {α : Type} {g : Grammar α} {c : Compiled} {d : Doc} {t : Table} {s : Semantics α},
      Compiled.ofGrammar g = .ok c → g.DistinctShapes → Table.load g d = .ok t → s.Local →
        (Machine.mk g t s).Refines ⟨g, c.table, s⟩) ∧
    ∀ {d : Doc} {loaded : Cminus.Compiler}, Cminus.Compiler.ofDoc d = .ok loaded →
      ∃ compiled, Cminus.Compiler.ofGrammar = .ok compiled ∧
        loaded.machine.Refines compiled.machine ∧
          ∀ tokens program, loaded.compile tokens = some (.ok program) →
            compiled.compile tokens = some (.ok program) := by
  refine ⟨fun hc hshapes ht hs => Machine.refines_of_fits hc hshapes (Table.fits_of_load ht) hs,
    fun {d loaded} h => ?_⟩
  obtain ⟨t, ht, rfl⟩ := Cminus.Compiler.ofDoc_eq_ok_iff.mp h
  obtain ⟨c, hc, hcompiler⟩ := Cminus.exists_ofGrammar
  have hrefines := Machine.refines_of_fits hc Cminus.distinctShapes_resolved
    (Table.fits_of_load ht) Cminus.local_semantics
  refine ⟨_, hcompiler, hrefines, fun tokens program hprogram => ?_⟩
  rw [Cminus.Compiler.compile_eq_some_ok_iff] at hprogram ⊢
  obtain ⟨hresult, hpool⟩ := hrefines tokens Pool.initial _ hprogram.1
  exact ⟨hresult, hpool.trans hprogram.2⟩

/-- `S -> a S | b`. -/
def endsInB : Grammar Unit where
  terminals := ["a", "b"]
  nonTerminals := ["S"]
  productions := [{ left := 0, right := [.terminal 0, .nonTerminal 0] },
    { left := 0, right := [.terminal 1] }]
  start := 0

/-- A document with a production at the end mark too, where nothing can be derived. -/
def endsInBDoc : Doc :=
  ("[[\"a\",\"b\"],[\"S\"],[\"S -> a S\",\"S -> b\"],[],[],[[0,1,0]]]".toList).map some

/-- The loaded table is not the compiled one, and accepts `a b`. -/
theorem load_refines_endsInB :
    ∃ c t, Compiled.ofGrammar endsInB = .ok c ∧ Table.load endsInB endsInBDoc = .ok t ∧
      t ≠ c.table ∧ (Machine.mk endsInB t Semantics.none).Refines ⟨endsInB, c.table, .none⟩ ∧
        ((Machine.mk endsInB t Semantics.none).run [⟨"a", "a", 1⟩, ⟨"b", "b", 1⟩]
          Pool.initial).verdict = .accepted := by
  have hc : ((Compiled.ofGrammar endsInB).map fun c => c.table.rows) =
      .ok [[some 0, some 1, none]] := by decide +kernel
  have ht : ((Table.load endsInB endsInBDoc).map fun t => (t.rows, ((Machine.mk endsInB t
      Semantics.none).run [⟨"a", "a", 1⟩, ⟨"b", "b", 1⟩] Pool.initial).verdict)) =
        .ok ([[some 0, some 1, some 0]], .accepted) := by decide +kernel
  obtain ⟨c, hcompiled, hrows⟩ := map_eq_ok hc
  obtain ⟨t, hload, hpair⟩ := map_eq_ok ht
  obtain ⟨hrows', hverdict⟩ := Prod.mk.inj hpair
  have hne : t ≠ c.table := by
    rintro rfl
    cases hrows.symm.trans hrows'
  have hshapes : endsInB.DistinctShapes := by
    unfold Grammar.DistinctShapes
    decide
  exact ⟨c, t, hcompiled, hload, hne, load_refines.1 hcompiled hshapes hload Semantics.local_none,
    hverdict⟩

end PredictiveParsing
