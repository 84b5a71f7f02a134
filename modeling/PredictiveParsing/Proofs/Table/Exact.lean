import PredictiveParsing.Proofs.Table.Overlap
import PredictiveParsing.Table.Compile

/-!
# Tables are exact

`Claims p x` says in terms of derivations that the production `p` wants the cell of the lookahead
`x`. Filling a table enters the claims one after the other. `Records` ties a table to the entries
made so far: a cell holds the first of them for it, and all of them have one shape. `Records.enters`
carries it through any list of entries, up to the first conflict, and `enters_fill` through those of
a grammar. Only this can fail when the indices fit (`Compiled.ofGrammar_of_compute`).
`Compiled.Exact` collects what a successful compilation says about the sets and the table
(`exact_of_ofGrammar`).
-/

namespace PredictiveParsing

variable {α : Type} {g : Grammar α}

def Grammar.Claims (g : Grammar α) (p : Production α) (x : Sign) : Prop :=
  g.Begins p.right x ∧ x ≠ .empty ∨ g.Derives p.right [] ∧ g.Follows p.left x

/-- Productions that claim one cell have one shape. -/
def Grammar.ClaimsAgree (g : Grammar α) : Prop :=
  ∀ p ∈ g.productions, ∀ q ∈ g.productions, ∀ x, p.left = q.left → g.Claims p x → g.Claims q x →
    p.SameShape q

/-- Only terminals of the grammar and the end mark are claimed. -/
theorem Grammar.Claims.column (hg : g.Valid) {p : Production α}
    (hp : p ∈ g.productions) {x : Sign} (h : g.Claims p x) :
    (∃ i < g.terminals.length, x = .terminal i) ∨ x = .pound := by
  cases x with
  | terminal t =>
    refine .inl ⟨t, ?_, rfl⟩
    rcases h with ⟨⟨v, hv⟩, -⟩ | ⟨-, m, a, b, hd⟩
    · exact Grammar.fits_terminal.mp (hg.fits_of_derives hv (hg.right_fits p hp) _ (by simp))
    · have ht := (hg.mem_or_fits_of_derives hd (.terminal t) (by simp)).resolve_left (by simp)
      exact Grammar.fits_terminal.mp ht
  | pound => exact .inr rfl
  | nonTerminal n => exact (h.elim And.left And.right).elim
  | empty => exact h.elim (fun h => absurd rfl h.2) fun h => h.2.elim

namespace Production

theorem SameShape.refl (p : Production α) : p.SameShape p := ⟨rfl, rfl⟩

theorem SameShape.symm {p q : Production α} (h : p.SameShape q) : q.SameShape p :=
  ⟨h.1.symm, h.2.symm⟩

theorem SameShape.trans {p q r : Production α} (h : p.SameShape q) (h' : q.SameShape r) :
    p.SameShape r := ⟨h.1.trans h'.1, h.2.trans h'.2⟩

end Production

namespace Table

/-! ## Cells by lookahead -/

theorem column?_inj {t : Table} {x y : Sign} {c : Nat} (hx : t.column? x = some c)
    (hy : t.column? y = some c) : x = y := by
  cases x <;> cases y <;> simp only [column?] at hx hy <;> grind

theorem get?_blank (n m nt : Nat) (x : Sign) : (blank n m).get? nt x = none := by
  simp only [get?, cell?_blank]
  cases (blank n m).column? x <;> rfl

theorem get?_eq {t : Table} {nt : Nat} {x : Sign} {c : Nat} (hc : t.column? x = some c) :
    t.get? nt x = t.cell? nt c := by
  simp [get?, hc]

theorem get?_put {t : Table} {nt : Nat} {x : Sign} {c i : Nat} (hn : nt < t.rows.length)
    (hc : t.column? x = some c) (nt' : Nat) (y : Sign) :
    (t.put nt c i).get? nt' y = if nt' = nt ∧ y = x then some i else t.get? nt' y := by
  have hsame : (t.put nt c i).column? y = t.column? y := by cases y <;> rfl
  cases hy : t.column? y with
  | none =>
    have hne : y ≠ x := fun e => by simp [← e, hy] at hc
    simp [get?, hsame, hy, hne]
  | some d =>
    rw [get?_eq (hsame.trans hy), get?_eq hy, cell?_put hn (column?_lt hc)]
    by_cases he : y = x
    · subst he
      obtain rfl : d = c := Option.some.inj (hy.symm.trans hc)
      simp
    · have hne : d ≠ c := fun e => he (column?_inj (e ▸ hy) hc)
      simp [he, hne]

/-! ## Entries -/

/-- The production at `index` wants the cell of its left side and `sign`. -/
structure Entry (α : Type) where
  production : Production α
  index : Nat
  sign : Sign

namespace Entry

def SameCell (d e : Entry α) : Prop := d.production.left = e.production.left ∧ d.sign = e.sign

theorem SameCell.symm {d e : Entry α} (h : d.SameCell e) : e.SameCell d := ⟨h.1.symm, h.2.symm⟩

def inCell (nt : Nat) (x : Sign) (e : Entry α) : Bool := e.production.left = nt ∧ e.sign = x

theorem inCell_iff {nt : Nat} {x : Sign} {e : Entry α} :
    e.inCell nt x = true ↔ e.production.left = nt ∧ e.sign = x := decide_eq_true_iff

def fault (g : Grammar α) (d e : Entry α) : GrammarFault :=
  .conflict (g.nameOf (.nonTerminal e.production.left)) (g.nameOf e.sign) (g.textOf d.production)
    (g.textOf e.production)

/-- The entry is about a production of the grammar and a column of its table. -/
structure Genuine (g : Grammar α) (e : Entry α) : Prop where
  production_eq : g.productions[e.index]? = some e.production
  left_lt : e.production.left < g.nonTerminals.length
  column : (∃ i < g.terminals.length, e.sign = .terminal i) ∨ e.sign = .pound

end Entry

/-- The table after the entries of `done`: each cell has the first entry for it, and there is no
conflict among them. -/
structure Records (g : Grammar α) (done : List (Entry α)) (t : Table) : Prop where
  rows_length : t.rows.length = g.nonTerminals.length
  terminals_eq : t.terminals = g.terminals.length
  genuine : ∀ e ∈ done, e.Genuine g
  get?_eq : ∀ nt x, t.get? nt x = (done.find? (Entry.inCell nt x)).map Entry.index
  same : ∀ d ∈ done, ∀ e ∈ done, d.SameCell e → d.production.SameShape e.production

theorem records_blank (g : Grammar α) :
    Records g [] (blank g.nonTerminals.length g.terminals.length) where
  rows_length := List.length_replicate
  terminals_eq := rfl
  genuine := by simp
  get?_eq nt x := get?_blank ..
  same := by simp

def enterOne (g : Grammar α) (t : Table) (e : Entry α) : Except GrammarFault Table :=
  claim g e.production e.index t e.sign

theorem Records.column?_eq {done : List (Entry α)} {t : Table} (h : Records g done t)
    {e : Entry α} (he : e.Genuine g) : ∃ c, t.column? e.sign = some c := by
  rcases he.column with ⟨i, hi, hs⟩ | hs
  · exact ⟨i, by simp [hs, column?, h.terminals_eq, hi]⟩
  · exact ⟨t.terminals, by simp [hs, column?]⟩

/-- An entry into a cell that nobody has. -/
theorem Records.enterOne_of_free {done : List (Entry α)} {t : Table} (h : Records g done t)
    {e : Entry α} (he : e.Genuine g)
    (hfree : done.find? (Entry.inCell e.production.left e.sign) = none) :
    ∃ t', enterOne g t e = .ok t' ∧ Records g (done ++ [e]) t' := by
  obtain ⟨c, hc⟩ := h.column?_eq he
  have hcell : t.cell? e.production.left c = none := by
    rw [← Table.get?_eq hc, h.get?_eq, hfree, Option.map_none]
  have hn : e.production.left < t.rows.length := h.rows_length ▸ he.left_lt
  have hnone : ∀ d ∈ done, ¬ d.SameCell e := fun d hd hs =>
    List.find?_eq_none.mp hfree d hd (Entry.inCell_iff.mpr hs)
  refine ⟨t.put e.production.left c e.index, by simp [enterOne, claim, hc, hcell], ?_⟩
  refine ⟨by simpa [put] using h.rows_length, h.terminals_eq, ?_, fun nt x => ?_, ?_⟩
  · exact List.forall_mem_append.mpr ⟨h.genuine, List.forall_mem_singleton.mpr he⟩
  · rw [get?_put hn hc, h.get?_eq, List.find?_append]
    by_cases hx : nt = e.production.left ∧ x = e.sign
    · obtain ⟨rfl, rfl⟩ := hx
      simp [hfree, Entry.inCell]
    · have hno : e.inCell nt x = false :=
        Bool.eq_false_iff.mpr fun hb =>
          hx ⟨(Entry.inCell_iff.mp hb).1.symm, (Entry.inCell_iff.mp hb).2.symm⟩
      rw [if_neg hx]
      simp [hno]
  · simp only [List.forall_mem_append, List.forall_mem_singleton]
    refine ⟨fun d hd => ⟨h.same d hd, fun hs => absurd hs (hnone d hd)⟩, fun d hd hs => ?_,
      fun _ => .refl _⟩
    exact absurd hs.symm (hnone d hd)

/-- An entry into a cell that `d` came to first. -/
theorem Records.enterOne_of_held {done : List (Entry α)} {t : Table} (h : Records g done t)
    {d e : Entry α} (he : e.Genuine g)
    (hheld : done.find? (Entry.inCell e.production.left e.sign) = some d) :
    enterOne g t e =
      if d.production.SameShape e.production then .ok t else .error (d.fault g e) := by
  obtain ⟨c, hc⟩ := h.column?_eq he
  have hcell : t.cell? e.production.left c = some d.index := by
    rw [← Table.get?_eq hc, h.get?_eq, hheld, Option.map_some]
  have hd := (h.genuine d (List.mem_of_find?_eq_some hheld)).production_eq
  by_cases hs : d.production.SameShape e.production
  · simp [enterOne, claim, hc, hcell, hd, hs]
  · have hne : d.index ≠ e.index := by
      intro hi
      have hde : d.production = e.production := by
        simpa [hi, he.production_eq] using hd.symm
      exact hs (hde ▸ .refl _)
    simp [enterOne, claim, hc, hcell, hd, hs, hne, Entry.fault]

theorem Records.append_of_held {done : List (Entry α)} {t : Table} (h : Records g done t)
    {d e : Entry α} (he : e.Genuine g)
    (hheld : done.find? (Entry.inCell e.production.left e.sign) = some d)
    (hs : d.production.SameShape e.production) : Records g (done ++ [e]) t := by
  have hmem := List.mem_of_find?_eq_some hheld
  have hcell : d.SameCell e := Entry.inCell_iff.mp (List.find?_some hheld)
  have hsame : ∀ d' ∈ done, d'.SameCell e → d'.production.SameShape e.production :=
    fun d' hd' hc => (h.same d' hd' d hmem
      ⟨hc.1.trans hcell.1.symm, hc.2.trans hcell.2.symm⟩).trans hs
  refine ⟨h.rows_length, h.terminals_eq, ?_, fun nt x => ?_, ?_⟩
  · exact List.forall_mem_append.mpr ⟨h.genuine, List.forall_mem_singleton.mpr he⟩
  · rw [h.get?_eq, List.find?_append]
    by_cases hx : e.inCell nt x = true
    · obtain ⟨rfl, rfl⟩ := Entry.inCell_iff.mp hx
      simp [hheld]
    · simp [hx]
  · simp only [List.forall_mem_append, List.forall_mem_singleton]
    exact ⟨fun d' hd' => ⟨h.same d' hd', hsame d' hd'⟩,
      fun d' hd' hc => (hsame d' hd' hc.symm).symm, fun _ => .refl _⟩

/-- Entering `es` after `done` succeeds, or stops at the first that conflicts with one before. -/
def Enters (g : Grammar α) (done es : List (Entry α)) (result : Except GrammarFault Table) : Prop :=
  (∃ t, result = .ok t ∧ Records g (done ++ es) t) ∨
    ∃ before e after d t, es = before ++ e :: after ∧ Records g (done ++ before) t ∧
      (done ++ before).find? (Entry.inCell e.production.left e.sign) = some d ∧
      ¬ d.production.SameShape e.production ∧ result = .error (d.fault g e)

theorem Enters.cons {done es : List (Entry α)} {e : Entry α} {result : Except GrammarFault Table}
    (h : Enters g (done ++ [e]) es result) : Enters g done (e :: es) result := by
  rcases h with ⟨t, hok, hr⟩ | ⟨before, e', after, d, t, rfl, hr, hf, hs, herr⟩
  · exact .inl ⟨t, hok, by simpa using hr⟩
  · exact .inr ⟨e :: before, e', after, d, t, rfl, by simpa using hr, by simpa using hf, hs, herr⟩

theorem Records.enters {done : List (Entry α)} {t : Table} (h : Records g done t)
    {es : List (Entry α)} (hes : ∀ e ∈ es, e.Genuine g) :
    Enters g done es (es.foldlM (enterOne g) t) := by
  induction es generalizing done t with
  | nil => exact .inl ⟨t, rfl, by simpa using h⟩
  | cons e es ih =>
    obtain ⟨he, hes⟩ := List.forall_mem_cons.mp hes
    rw [List.foldlM_cons]
    cases hfind : done.find? (Entry.inCell e.production.left e.sign) with
    | none =>
      obtain ⟨t', hok, hr⟩ := h.enterOne_of_free he hfind
      rw [hok]
      exact (ih hr hes).cons
    | some d =>
      rw [h.enterOne_of_held he hfind]
      by_cases hs : d.production.SameShape e.production
      · rw [if_pos hs]
        exact (ih (h.append_of_held he hfind hs) hes).cons
      · rw [if_neg hs]
        exact .inr ⟨[], e, es, d, t, rfl, by simpa using h, by simpa using hfind, hs, rfl⟩

/-! ## Filling -/

/-- The lookaheads that `claims` finds for `p`. -/
def lookaheads (firsts follows : Family) (p : Production α) : List Sign :=
  if .empty ∈ firstSet firsts p.right then
    (firstSet firsts p.right).withoutEmpty.members ++ (follows.entry p.left).members
  else (firstSet firsts p.right).members

def entriesOf (firsts follows : Family) (entry : Production α × Nat) : List (Entry α) :=
  (lookaheads firsts follows entry.1).map fun x => ⟨entry.1, entry.2, x⟩

def entries (g : Grammar α) (firsts follows : Family) : List (Entry α) :=
  g.productions.zipIdx.flatMap (entriesOf firsts follows)

theorem claims_eq (hg : g.Valid) {firsts follows : Family}
    (hf : firsts.length = g.nonTerminals.length) (hw : follows.length = g.nonTerminals.length)
    {p : Production α} (hp : p ∈ g.productions) :
    claims firsts follows p = .ok (lookaheads firsts follows p) := by
  have hn : p.left < follows.length := hw ▸ hg.left_lt p hp
  rw [claims, lookaheads, firstOf_eq hf (hg.right_fits p hp)]
  simp only [bind, Except.bind, Family.at?_eq hn, pure, Except.pure]
  split <;> rfl

theorem mem_lookaheads {firsts follows : Family} (hf : First.Exact g firsts)
    (hw : Follow.Exact g follows) {p : Production α} {x : Sign} :
    x ∈ lookaheads firsts follows p ↔ g.Claims p x := by
  have hempty : .empty ∈ firstSet firsts p.right ↔ g.Derives p.right [] :=
    hf.mem_firstSet p.right .empty
  rw [lookaheads, Grammar.Claims, ← hempty, ← hf.mem_firstSet, ← hw.mem_entry]
  split
  next h => simp [h, SignSet.mem_members]
  next h =>
    simp only [SignSet.mem_members, h, false_and, or_false]
    exact ⟨fun hx => ⟨hx, fun he => h (he ▸ hx)⟩, And.left⟩

theorem fill_eq (hg : g.Valid) {firsts follows : Family}
    (hf : firsts.length = g.nonTerminals.length) (hw : follows.length = g.nonTerminals.length) :
    fill g firsts follows = (entries g firsts follows).foldlM (enterOne g)
      (blank g.nonTerminals.length g.terminals.length) := by
  have henter : ∀ entry ∈ g.productions.zipIdx, ∀ t,
      enter g firsts follows t entry = (entriesOf firsts follows entry).foldlM (enterOne g) t := by
    intro entry he t
    have hp : entry.1 ∈ g.productions := (List.mem_zipIdx he).2.2 ▸ List.getElem_mem _
    rw [enter, claims_eq hg hf hw hp, entriesOf, List.foldlM_map]
    rfl
  rw [fill, entries]
  generalize blank g.nonTerminals.length g.terminals.length = t
  revert henter t
  induction g.productions.zipIdx with
  | nil => intro _ t; rfl
  | cons entry rest ih =>
    intro henter t
    obtain ⟨he, hrest⟩ := List.forall_mem_cons.mp henter
    rw [List.foldlM_cons, List.flatMap_cons, List.foldlM_append, he]
    exact bind_congr fun t' => ih hrest t'

theorem mem_entries {firsts follows : Family} (hf : First.Exact g firsts)
    (hw : Follow.Exact g follows) {e : Entry α} :
    e ∈ entries g firsts follows ↔
      g.productions[e.index]? = some e.production ∧ g.Claims e.production e.sign := by
  simp only [entries, entriesOf, List.mem_flatMap, List.mem_map, mem_lookaheads hf hw]
  constructor
  · rintro ⟨⟨p, i⟩, hm, x, hx, rfl⟩
    exact ⟨List.mem_zipIdx_iff_getElem?.mp hm, hx⟩
  · rintro ⟨hp, hx⟩
    exact ⟨(e.production, e.index), List.mem_zipIdx_iff_getElem?.mpr hp, e.sign, hx, rfl⟩

theorem enters_fill (hg : g.Valid) {firsts follows : Family} (hf : First.Exact g firsts)
    (hw : Follow.Exact g follows) :
    Enters g [] (entries g firsts follows) (fill g firsts follows) := by
  rw [fill_eq hg hf.length_eq hw.length_eq]
  refine (records_blank g).enters fun e he => ?_
  obtain ⟨hp, hx⟩ := (mem_entries hf hw).mp he
  have hm := List.mem_of_getElem? hp
  exact ⟨hp, hg.left_lt _ hm, hx.column hg hm⟩

theorem records_of_fill (hg : g.Valid) {firsts follows : Family} (hf : First.Exact g firsts)
    (hw : Follow.Exact g follows) {t : Table} (ht : fill g firsts follows = .ok t) :
    Records g (entries g firsts follows) t := by
  rcases enters_fill hg hf hw with ⟨t', hok, hr⟩ | ⟨_, _, _, _, _, _, _, _, _, herr⟩
  · obtain rfl : t' = t := Except.ok.inj (hok.symm.trans ht)
    exact hr
  · cases herr.symm.trans ht

/-- The table has an entry where a production claims one, and the entry is such a production. -/
structure Exact (g : Grammar α) (t : Table) : Prop where
  rows_length : t.rows.length = g.nonTerminals.length
  claimed : ∀ nt x i, t.get? nt x = some i →
    ∃ p, g.productions[i]? = some p ∧ p.left = nt ∧ g.Claims p x
  chosen : ∀ p ∈ g.productions, ∀ x, g.Claims p x →
    ∃ i q, t.get? p.left x = some i ∧ g.productions[i]? = some q ∧ q.SameShape p

/-- The cell holds one production only, which has the shape of both claimants. -/
theorem Exact.claimsAgree {t : Table} (ht : t.Exact g) : g.ClaimsAgree := by
  intro p hp q hq x hleft hpx hqx
  obtain ⟨i, r, hi, hr, hrp⟩ := ht.chosen p hp x hpx
  obtain ⟨j, s, hj, hs, hsq⟩ := ht.chosen q hq x hqx
  rw [← hleft, hi] at hj
  cases hj
  rw [hr] at hs
  cases hs
  exact hrp.symm.trans hsq

theorem exact_of_fill (hg : g.Valid) {firsts follows : Family} (hf : First.Exact g firsts)
    (hw : Follow.Exact g follows) {t : Table} (ht : fill g firsts follows = .ok t) :
    Exact g t := by
  have hr := records_of_fill hg hf hw ht
  refine ⟨hr.rows_length, fun nt x i hi => ?_, fun p hp x hx => ?_⟩
  · rw [hr.get?_eq] at hi
    obtain ⟨e, hfind, rfl⟩ := Option.map_eq_some_iff.mp hi
    obtain ⟨rfl, rfl⟩ := Entry.inCell_iff.mp (List.find?_some hfind)
    obtain ⟨hp, hx⟩ := (mem_entries hf hw).mp (List.mem_of_find?_eq_some hfind)
    exact ⟨e.production, hp, rfl, hx⟩
  · obtain ⟨i, hi⟩ := List.mem_iff_getElem?.mp hp
    have he : (⟨p, i, x⟩ : Entry α) ∈ entries g firsts follows := (mem_entries hf hw).mpr ⟨hi, hx⟩
    cases hfind : (entries g firsts follows).find? (Entry.inCell p.left x) with
    | none => exact absurd (Entry.inCell_iff.mpr ⟨rfl, rfl⟩) (List.find?_eq_none.mp hfind _ he)
    | some d =>
      have hd := List.mem_of_find?_eq_some hfind
      have hsame := hr.same d hd _ he (Entry.inCell_iff.mp (List.find?_some hfind))
      exact ⟨d.index, d.production, by rw [hr.get?_eq, hfind, Option.map_some],
        (hr.genuine d hd).production_eq, hsame⟩

end Table

/-! ## Compilations -/

theorem map_eq_ok {ε β γ : Type} {f : β → γ} {x : Except ε β} {c : γ} (h : x.map f = .ok c) :
    ∃ b, x = .ok b ∧ f b = c := by
  cases x with
  | error => cases h
  | ok b => exact ⟨b, rfl, Except.ok.inj h⟩

theorem mapError_bind_of_eq_ok {ε ε' β γ : Type} {f : ε → ε'} {k : β → Except ε' γ}
    {x : Except ε β} {b : β} (h : x = .ok b) : (x.mapError f >>= k) = k b := by
  subst h
  rfl


namespace Compiled

structure Exact (g : Grammar α) (c : Compiled) : Prop where
  valid : g.Valid
  firsts : First.Exact g c.firsts
  follows : Follow.Exact g c.follows
  table : Table.Exact g c.table

/-- Once there are exact sets, what comes of a compilation is what comes of filling the table. -/
theorem ofGrammar_of_compute (hg : g.Valid) {firsts follows : Family} {passes passes' : Nat}
    (hfok : First.compute g = .ok (firsts, passes))
    (hwok : Follow.compute g firsts = .ok (follows, passes')) (hf : First.Exact g firsts)
    (hw : Follow.Exact g follows) : ofGrammar g = (Table.fill g firsts follows).map fun table =>
      { firsts, follows, overlaps := Overlap.all g firsts follows, table } := by
  have hoverlaps := Overlap.ofGrammar_eq hg hf.length_eq hw.length_eq
  simp only [ofGrammar, hfok, hwok, hoverlaps, bind, Except.bind]
  cases Table.fill g firsts follows with
  | error fault => rfl
  | ok t => rfl

theorem ofGrammar_eq (hg : g.Valid) :
    ∃ firsts follows overlaps, First.Exact g firsts ∧ Follow.Exact g follows ∧
      ofGrammar g =
        (Table.fill g firsts follows).map fun table => { firsts, follows, overlaps, table } := by
  obtain ⟨firsts, _, hfok, -, hf⟩ := First.compute_exact hg
  obtain ⟨follows, _, hwok, -, hw⟩ := Follow.compute_exact hg hf
  exact ⟨firsts, follows, _, hf, hw, ofGrammar_of_compute hg hfok hwok hf hw⟩

theorem valid_of_ofGrammar {c : Compiled} (h : ofGrammar g = .ok c) : g.Valid := by
  cases hv : g.validate with
  | error fault => simp [ofGrammar, First.compute, hv, bind, Except.bind] at h
  | ok => exact Grammar.validate_eq_ok_iff.mp hv

/-- A compilation that succeeds has exact sets and has filled its table from them. -/
theorem fill_of_ofGrammar {c : Compiled} (h : ofGrammar g = .ok c) :
    First.Exact g c.firsts ∧ Follow.Exact g c.follows ∧
      Table.fill g c.firsts c.follows = .ok c.table := by
  obtain ⟨firsts, follows, overlaps, hf, hw, heq⟩ := ofGrammar_eq (valid_of_ofGrammar h)
  obtain ⟨t, ht, rfl⟩ := map_eq_ok (heq.symm.trans h)
  exact ⟨hf, hw, ht⟩

theorem exact_of_ofGrammar {c : Compiled} (h : ofGrammar g = .ok c) : Exact g c := by
  obtain ⟨hf, hw, ht⟩ := fill_of_ofGrammar h
  exact ⟨valid_of_ofGrammar h, hf, hw, Table.exact_of_fill (valid_of_ofGrammar h) hf hw ht⟩

/-- The columns of a compiled table are those of the terminals and the end mark. -/
theorem terminals_of_ofGrammar {c : Compiled} (h : ofGrammar g = .ok c) :
    c.table.terminals = g.terminals.length := by
  obtain ⟨hf, hw, ht⟩ := fill_of_ofGrammar h
  exact (Table.records_of_fill (valid_of_ofGrammar h) hf hw ht).terminals_eq

end Compiled

end PredictiveParsing
