import Mathlib.Order.Bounds.Basic
import PredictiveParsing.Proofs.Table.Exact

/-!
# Who gets a cell

* `table_exact`: a grammar has a table when its indices fit and all productions that claim one cell
  have one shape; the table has the first claimant in each cell; and when the indices fit, nothing
  but two claimants of different shapes can make the compilation fail.

Claims are entered in the order of productions, so the first entry for a cell is that of the lowest
index, and which conflict is met first does not matter for whether there is one.
-/

namespace PredictiveParsing

variable {α : Type} {g : Grammar α}

/-- The indices of the productions that claim the cell of `nt` and `x`. -/
def Grammar.claimants (g : Grammar α) (nt : Nat) (x : Sign) : Set Nat :=
  {i | ∃ p, g.productions[i]? = some p ∧ p.left = nt ∧ g.Claims p x}

namespace Table

variable {firsts follows : Family}

/-! ## The order of entries -/

theorem pairwise_zipIdx {β : Type} (bs : List β) : bs.zipIdx.Pairwise fun a b => a.2 < b.2 := by
  refine List.pairwise_map.mp ?_
  rw [List.zipIdx_map_snd]
  exact List.pairwise_lt_range' 1

theorem pairwise_entries (g : Grammar α) (firsts follows : Family) :
    (entries g firsts follows).Pairwise fun d e => d.index ≤ e.index := by
  refine List.pairwise_flatMap.mpr ⟨fun entry _ => ?_, ?_⟩
  · exact List.pairwise_map.mpr (List.pairwise_of_forall fun _ _ => Nat.le_refl _)
  · refine (pairwise_zipIdx g.productions).imp fun {a b} hlt d hd e he => ?_
    obtain ⟨_, -, rfl⟩ := List.mem_map.mp hd
    obtain ⟨_, -, rfl⟩ := List.mem_map.mp he
    exact Nat.le_of_lt hlt

theorem index_le_of_find? {es : List (Entry α)} (hes : es.Pairwise fun d e => d.index ≤ e.index)
    {nt : Nat} {x : Sign} {d : Entry α} (h : es.find? (Entry.inCell nt x) = some d) :
    ∀ e ∈ es, e.inCell nt x = true → d.index ≤ e.index := by
  obtain ⟨-, before, after, rfl, hbefore⟩ := List.find?_eq_some_iff_append.mp h
  have hd := (List.pairwise_cons.mp (List.pairwise_append.mp hes).2.1).1
  intro e he hcell
  rcases List.mem_append.mp he with he | he
  · simpa [hcell] using hbefore e he
  · rcases List.mem_cons.mp he with rfl | he
    · exact Nat.le_refl _
    · exact hd e he

/-! ## The first claimant -/

theorem mem_claimants_iff (hf : First.Exact g firsts) (hw : Follow.Exact g follows) {nt : Nat}
    {x : Sign} {i : Nat} : i ∈ g.claimants nt x ↔
      ∃ e ∈ entries g firsts follows, e.inCell nt x = true ∧ e.index = i := by
  simp only [mem_entries hf hw, Entry.inCell_iff]
  constructor
  · rintro ⟨p, hp, hleft, hx⟩
    exact ⟨⟨p, i, x⟩, ⟨hp, hx⟩, ⟨hleft, rfl⟩, rfl⟩
  · rintro ⟨⟨p, _, _⟩, ⟨hp, hx⟩, ⟨hleft, rfl⟩, rfl⟩
    exact ⟨p, hp, hleft, hx⟩

theorem isLeast_of_find? (hf : First.Exact g firsts) (hw : Follow.Exact g follows) {nt : Nat}
    {x : Sign} {d : Entry α} (h : (entries g firsts follows).find? (Entry.inCell nt x) = some d) :
    IsLeast (g.claimants nt x) d.index := by
  refine ⟨?_, fun i hi => ?_⟩
  · exact (mem_claimants_iff hf hw).mpr
      ⟨d, List.mem_of_find?_eq_some h, List.find?_some h, rfl⟩
  · obtain ⟨e, he, hcell, rfl⟩ := (mem_claimants_iff hf hw).mp hi
    exact index_le_of_find? (pairwise_entries ..) h e he hcell

theorem Records.get?_eq_none_iff (hf : First.Exact g firsts) (hw : Follow.Exact g follows)
    {t : Table} (hr : Records g (entries g firsts follows) t) {nt : Nat} {x : Sign} :
    t.get? nt x = none ↔ g.claimants nt x = ∅ := by
  rw [hr.get?_eq, Option.map_eq_none_iff, List.find?_eq_none, Set.eq_empty_iff_forall_notMem]
  simp only [mem_claimants_iff hf hw]
  constructor
  · rintro h i ⟨e, he, hcell, -⟩
    exact h e he hcell
  · exact fun h e he hcell => h e.index ⟨e, he, hcell, rfl⟩

theorem Records.get?_eq_some_iff (hf : First.Exact g firsts) (hw : Follow.Exact g follows)
    {t : Table} (hr : Records g (entries g firsts follows) t) {nt : Nat} {x : Sign} {i : Nat} :
    t.get? nt x = some i ↔ IsLeast (g.claimants nt x) i := by
  constructor
  · intro h
    rw [hr.get?_eq] at h
    obtain ⟨d, hfind, rfl⟩ := Option.map_eq_some_iff.mp h
    exact isLeast_of_find? hf hw hfind
  · intro hi
    cases h : t.get? nt x with
    | none =>
      rw [(hr.get?_eq_none_iff hf hw).mp h] at hi
      exact hi.1.elim
    | some j =>
      rw [hr.get?_eq] at h
      obtain ⟨d, hfind, rfl⟩ := Option.map_eq_some_iff.mp h
      exact congrArg some ((isLeast_of_find? hf hw hfind).unique hi)

/-! ## Disputes -/

/-- Two productions of different shapes claim one cell, and `fault` tells so. -/
def Disputed (g : Grammar α) (fault : GrammarFault) : Prop :=
  ∃ p ∈ g.productions, ∃ q ∈ g.productions, ∃ x, p.left = q.left ∧ g.Claims p x ∧ g.Claims q x ∧
    ¬ p.SameShape q ∧
    fault = .conflict (g.nameOf (.nonTerminal p.left)) (g.nameOf x) (g.textOf p) (g.textOf q)

theorem Disputed.not_claimsAgree {fault : GrammarFault} (h : Disputed g fault) :
    ¬ g.ClaimsAgree := by
  obtain ⟨p, hp, q, hq, x, hleft, hpx, hqx, hne, -⟩ := h
  exact fun hagree => hne (hagree p hp q hq x hleft hpx hqx)

theorem records_or_disputed (hg : g.Valid) (hf : First.Exact g firsts)
    (hw : Follow.Exact g follows) :
    (∃ t, fill g firsts follows = .ok t ∧ Records g (entries g firsts follows) t) ∨
      ∃ fault, fill g firsts follows = .error fault ∧ Disputed g fault := by
  rcases enters_fill hg hf hw with ⟨t, hok, hr⟩ | ⟨before, e, after, d, t, hes, -, hfind, hne, herr⟩
  · exact .inl ⟨t, hok, hr⟩
  · have hmem : ∀ e' ∈ before ++ e :: after,
        g.productions[e'.index]? = some e'.production ∧ g.Claims e'.production e'.sign :=
      fun e' he' => (mem_entries hf hw).mp (hes ▸ he')
    obtain ⟨hd, hdx⟩ := hmem d (List.mem_append_left _ (List.mem_of_find?_eq_some hfind))
    obtain ⟨he, hex⟩ := hmem e (List.mem_append_right _ List.mem_cons_self)
    obtain ⟨hleft, hsign⟩ := Entry.inCell_iff.mp (List.find?_some hfind)
    refine .inr ⟨_, herr, d.production, List.mem_of_getElem? hd, e.production,
      List.mem_of_getElem? he, e.sign, hleft, hsign ▸ hdx, hex, hne, ?_⟩
    rw [Entry.fault, hleft]

end Table

/-! ## Compilations -/

namespace Compiled

/-- A compilation of a grammar whose indices fit. -/
theorem records_or_disputed (hg : g.Valid) :
    ∃ firsts follows, First.Exact g firsts ∧ Follow.Exact g follows ∧
      ((∃ c, ofGrammar g = .ok c ∧ Table.Records g (Table.entries g firsts follows) c.table) ∨
        ∃ fault, ofGrammar g = .error fault ∧ Table.Disputed g fault) := by
  obtain ⟨firsts, follows, overlaps, hf, hw, heq⟩ := ofGrammar_eq hg
  refine ⟨firsts, follows, hf, hw, ?_⟩
  rcases Table.records_or_disputed hg hf hw with ⟨t, ht, hr⟩ | ⟨fault, ht, hd⟩
  · exact .inl ⟨_, heq.trans (congrArg _ ht), hr⟩
  · exact .inr ⟨fault, heq.trans (congrArg _ ht), hd⟩

theorem exists_eq_ok_iff (g : Grammar α) :
    (∃ c, ofGrammar g = .ok c) ↔ g.validate = .ok () ∧ g.ClaimsAgree := by
  constructor
  · rintro ⟨c, hc⟩
    have hexact := exact_of_ofGrammar hc
    exact ⟨Grammar.validate_eq_ok_iff.mpr hexact.valid, hexact.table.claimsAgree⟩
  · rintro ⟨hv, hagree⟩
    obtain ⟨_, _, -, -, ⟨c, hok, -⟩ | ⟨fault, -, hd⟩⟩ :=
      records_or_disputed (Grammar.validate_eq_ok_iff.mp hv)
    · exact ⟨c, hok⟩
    · exact absurd hagree hd.not_claimsAgree

theorem get?_iff {c : Compiled} (hc : ofGrammar g = .ok c) (nt : Nat) (x : Sign) :
    (∀ i, c.table.get? nt x = some i ↔ IsLeast (g.claimants nt x) i) ∧
      (c.table.get? nt x = none ↔ g.claimants nt x = ∅) := by
  obtain ⟨firsts, follows, hf, hw, ⟨c', hok, hr⟩ | ⟨fault, herr, -⟩⟩ :=
    records_or_disputed (valid_of_ofGrammar hc)
  · cases hok.symm.trans hc
    exact ⟨fun i => hr.get?_eq_some_iff hf hw, hr.get?_eq_none_iff hf hw⟩
  · cases herr.symm.trans hc

theorem disputed_of_error (hg : g.Valid) {fault : GrammarFault} (h : ofGrammar g = .error fault) :
    Table.Disputed g fault := by
  obtain ⟨_, _, -, -, ⟨c, hok, -⟩ | ⟨fault', herr, hd⟩⟩ := records_or_disputed hg
  · cases hok.symm.trans h
  · cases herr.symm.trans h
    exact hd

end Compiled

/-- When there is a table, which production is in each cell, and why there may be none. -/
theorem table_exact (g : Grammar α) :
    ((∃ c, Compiled.ofGrammar g = .ok c) ↔ g.validate = .ok () ∧ g.ClaimsAgree) ∧
      (∀ c, Compiled.ofGrammar g = .ok c → ∀ nt x,
        (∀ i, c.table.get? nt x = some i ↔ IsLeast (g.claimants nt x) i) ∧
          (c.table.get? nt x = none ↔ g.claimants nt x = ∅)) ∧
      ∀ fault, g.validate = .ok () → Compiled.ofGrammar g = .error fault →
        Table.Disputed g fault := by
  refine ⟨Compiled.exists_eq_ok_iff g, fun c hc nt x => Compiled.get?_iff hc nt x, ?_⟩
  intro fault hv h
  exact Compiled.disputed_of_error (Grammar.validate_eq_ok_iff.mp hv) h

end PredictiveParsing
