import PredictiveParsing.Failure
import PredictiveParsing.Proofs.Table.Claimants

/-!
# The conflict that is reported

Several productions may conflict in several cells. `FirstConflict` says which of these conflicts is
reported, in terms of claims only: it is that of the first production that contests a cell, at the
first of its lookaheads where it does, with the first claimant of that cell.

* `FirstConflict.unique`: there is at most one;
* `Table.fill_cases`: a table is filled, or filling stops with the first conflict;
* `reports_first_conflict`: what the compilation of a grammar with a conflict says.

All entries before the refused one agree (`Records.same`), and they are those of the productions
before, and of the lookaheads before, of the refused production.
-/

namespace PredictiveParsing

variable {α : Type} {g : Grammar α}

/-! ## The first conflict -/

/-- Of two splits of a list, each in front of the first element with a property, both are one. -/
theorem first_unique {β : Type} {P : β → Prop} {before before' after after' : List β} {x x' : β}
    (h : before ++ x :: after = before' ++ x' :: after') (hx : P x) (hx' : P x')
    (hbefore : ∀ y ∈ before, ¬ P y) (hbefore' : ∀ y ∈ before', ¬ P y) : x = x' := by
  rcases append_eq_middle h with ⟨rest, rfl, -⟩ | ⟨rest, rfl, hrest⟩
  · exact absurd hx' (hbefore x' (by simp))
  · cases rest with
    | nil => exact (List.cons.inj hrest).1
    | cons y rest =>
      obtain ⟨rfl, -⟩ := List.cons.inj hrest
      exact absurd hx (hbefore' x (by simp))

namespace Grammar

/-- The production at `j` claims `x`, and so does an earlier one of its left side with another
shape. -/
def Contests (g : Grammar α) (j : Nat) (x : Sign) : Prop :=
  ∃ i < j, ∃ p q, g.productions[i]? = some p ∧ g.productions[j]? = some q ∧ p.left = q.left ∧
    ¬ p.SameShape q ∧ g.Claims p x ∧ g.Claims q x

/-- The two lists in which `p` enters its claims, each in the order of signs: what its right side
can begin with and, when the right side can vanish, what follows its left side. -/
structure ClaimsInOrder (g : Grammar α) (p : Production α) (firsts follows : List Sign) : Prop where
  firsts_increasing : firsts.Pairwise (· < ·)
  mem_firsts : ∀ x, x ∈ firsts ↔ g.Begins p.right x ∧ x ≠ .empty
  follows_increasing : follows.Pairwise (· < ·)
  mem_follows : ∀ x, x ∈ follows ↔ g.Derives p.right [] ∧ g.Follows p.left x

/-- `q`, at `j`, is the first production that contests a cell, `x` is the first of its lookaheads
where it does, and `p`, at `i`, is the first production with a claim to that cell. -/
structure FirstConflict (g : Grammar α) (i j : Nat) (p q : Production α) (x : Sign) : Prop where
  earlier : g.productions[i]? = some p
  later : g.productions[j]? = some q
  least : IsLeast {j | ∃ x, g.Contests j x} j
  contests : g.Contests j x
  first : ∃ firsts follows before after, g.ClaimsInOrder q firsts follows ∧
    firsts ++ follows = before ++ x :: after ∧ ∀ y ∈ before, ¬ g.Contests j y
  holder : IsLeast (g.claimants q.left x) i

theorem ClaimsInOrder.unique {p : Production α} {firsts follows firsts' follows' : List Sign}
    (h : g.ClaimsInOrder p firsts follows) (h' : g.ClaimsInOrder p firsts' follows') :
    firsts = firsts' ∧ follows = follows' := by
  constructor
  · exact SignSet.eq_of_mem_iff h.firsts_increasing h'.firsts_increasing fun x =>
      (h.mem_firsts x).trans (h'.mem_firsts x).symm
  · exact SignSet.eq_of_mem_iff h.follows_increasing h'.follows_increasing fun x =>
      (h.mem_follows x).trans (h'.mem_follows x).symm

/-- There is at most one first conflict. -/
theorem FirstConflict.unique {i j i' j' : Nat} {p q p' q' : Production α} {x x' : Sign}
    (h : g.FirstConflict i j p q x) (h' : g.FirstConflict i' j' p' q' x') :
    i = i' ∧ j = j' ∧ p = p' ∧ q = q' ∧ x = x' := by
  obtain rfl : j = j' := h.least.unique h'.least
  obtain rfl : q = q' := Option.some.inj (h.later.symm.trans h'.later)
  obtain ⟨firsts, follows, before, after, horder, hsplit, hbefore⟩ := h.first
  obtain ⟨firsts', follows', before', after', horder', hsplit', hbefore'⟩ := h'.first
  obtain ⟨rfl, rfl⟩ := horder.unique horder'
  obtain rfl : x = x' :=
    first_unique (hsplit.symm.trans hsplit') h.contests h'.contests hbefore hbefore'
  obtain rfl : i = i' := h.holder.unique h'.holder
  exact ⟨rfl, rfl, Option.some.inj (h.earlier.symm.trans h'.earlier), rfl, rfl⟩

end Grammar

namespace Table

variable {firsts follows : Family}

/-! ## The entries of one production -/

/-- The lookaheads of a production are listed in the order of its claims. -/
theorem claimsInOrder_lookaheads (hf : First.Exact g firsts) (hw : Follow.Exact g follows)
    (p : Production α) :
    ∃ xs ys, g.ClaimsInOrder p xs ys ∧ lookaheads firsts follows p = xs ++ ys := by
  have hvanish : .empty ∈ firstSet firsts p.right ↔ g.Derives p.right [] :=
    hf.mem_firstSet p.right .empty
  rw [lookaheads]
  split
  next h =>
    refine ⟨_, _, ⟨SignSet.increasing _, ?_, SignSet.increasing _, ?_⟩, rfl⟩
    · intro x
      rw [SignSet.mem_members, SignSet.mem_withoutEmpty, hf.mem_firstSet]
    · intro x
      rw [SignSet.mem_members, hw.mem_entry, and_iff_right (hvanish.mp h)]
  next h =>
    refine ⟨_, [], ⟨SignSet.increasing _, ?_, .nil, ?_⟩, (List.append_nil _).symm⟩
    · intro x
      rw [SignSet.mem_members, ← hf.mem_firstSet]
      constructor
      · intro hx
        refine ⟨hx, ?_⟩
        rintro rfl
        exact h hx
      · exact And.left
    · intro x
      simp [← hvanish, h]

theorem index_of_mem_entriesOf {entry : Production α × Nat} {e : Entry α}
    (h : e ∈ entriesOf firsts follows entry) : e.index = entry.2 := by
  obtain ⟨x, -, rfl⟩ := List.mem_map.mp h
  rfl

/-- The entries with the index of a production are those of the production. -/
theorem filter_entries {j : Nat} {q : Production α} (hq : g.productions[j]? = some q) :
    (entries g firsts follows).filter (fun e => e.index = j) = entriesOf firsts follows (q, j) := by
  obtain ⟨hj, rfl⟩ := List.getElem?_eq_some_iff.mp hq
  have hsplit : g.productions.zipIdx =
      g.productions.zipIdx.take j ++ (g.productions[j], j) :: g.productions.zipIdx.drop (j + 1) := by
    have hlt : j < g.productions.zipIdx.length := by simpa using hj
    conv_lhs => rw [← List.take_append_drop j g.productions.zipIdx, List.drop_eq_getElem_cons hlt]
    simp
  have hindices := pairwise_zipIdx g.productions
  rw [hsplit] at hindices
  obtain ⟨-, hlater, hearlier⟩ := List.pairwise_append.mp hindices
  have hother : ∀ es : List (Production α × Nat), (∀ entry ∈ es, entry.2 ≠ j) →
      (es.flatMap (entriesOf firsts follows)).filter (fun e => e.index = j) = [] := by
    intro es hes
    refine List.filter_eq_nil_iff.mpr fun e he => ?_
    obtain ⟨entry, hentry, he⟩ := List.mem_flatMap.mp he
    simpa [index_of_mem_entriesOf he] using hes entry hentry
  have hown : (entriesOf firsts follows (g.productions[j], j)).filter (fun e => e.index = j) =
      entriesOf firsts follows (g.productions[j], j) :=
    List.filter_eq_self.mpr fun e he => by simp [index_of_mem_entriesOf he]
  rw [entries, hsplit, List.flatMap_append, List.flatMap_cons, List.filter_append,
    List.filter_append, hown, hother _ fun entry he => ?_, hother _ fun entry he => ?_,
    List.nil_append, List.append_nil]
  · exact Nat.ne_of_gt ((List.pairwise_cons.mp hlater).1 entry he)
  · exact Nat.ne_of_lt (hearlier entry he _ List.mem_cons_self)

/-! ## The entry that is refused -/

section Refused

variable {before after : List (Entry α)} {e : Entry α}

theorem genuine_of_split (hf : First.Exact g firsts) (hw : Follow.Exact g follows)
    (hes : entries g firsts follows = before ++ e :: after) {d : Entry α} (hd : d ∈ before ++ [e]) :
    g.productions[d.index]? = some d.production ∧ g.Claims d.production d.sign := by
  refine (mem_entries hf hw).mp ?_
  rw [hes, List.append_cons]
  exact List.mem_append_left _ hd

theorem index_le_of_mem_before (hes : entries g firsts follows = before ++ e :: after)
    {d : Entry α} (hd : d ∈ before) : d.index ≤ e.index := by
  have horder := pairwise_entries g firsts follows
  rw [hes] at horder
  exact (List.pairwise_append.mp horder).2.2 d hd e List.mem_cons_self

/-- What has a lower index is entered before. -/
theorem mem_before_of_lt (hf : First.Exact g firsts) (hw : Follow.Exact g follows)
    (hes : entries g firsts follows = before ++ e :: after) {i : Nat} {p : Production α} {x : Sign}
    (hp : g.productions[i]? = some p) (hx : g.Claims p x) (hi : i < e.index) :
    (⟨p, i, x⟩ : Entry α) ∈ before := by
  have horder := pairwise_entries g firsts follows
  rw [hes] at horder
  have hlater := (List.pairwise_cons.mp (List.pairwise_append.mp horder).2.1).1
  have hentry : (⟨p, i, x⟩ : Entry α) ∈ before ++ e :: after :=
    hes ▸ (mem_entries hf hw).mpr ⟨hp, hx⟩
  rcases List.mem_append.mp hentry with hentry | hentry
  · exact hentry
  · rcases List.mem_cons.mp hentry with rfl | hentry
    · exact absurd hi (Nat.lt_irrefl _)
    · exact absurd hi (Nat.not_lt_of_le (hlater _ hentry))

/-- An entry that was made contested nothing. -/
theorem not_contests_of_entered (hf : First.Exact g firsts) (hw : Follow.Exact g follows)
    (hes : entries g firsts follows = before ++ e :: after) {t : Table} (hr : Records g before t)
    {d : Entry α} (hd : d ∈ before) : ¬ g.Contests d.index d.sign := by
  rintro ⟨i, hi, p, q, hp, hq, hleft, hshape, hpx, -⟩
  obtain ⟨hd', -⟩ := genuine_of_split hf hw hes (List.mem_append_left _ hd)
  obtain rfl : d.production = q := Option.some.inj (hd'.symm.trans hq)
  have hentry := mem_before_of_lt hf hw hes hp hpx
    (Nat.lt_of_lt_of_le hi (index_le_of_mem_before hes hd))
  exact hshape (hr.same _ hentry d hd ⟨hleft, rfl⟩)

/-- The lookaheads of the production before that of the entry were entered before. -/
theorem lookaheads_of_split (hf : First.Exact g firsts) (hw : Follow.Exact g follows)
    (hes : entries g firsts follows = before ++ e :: after) :
    ∃ signs later, lookaheads firsts follows e.production = signs ++ e.sign :: later ∧
      ∀ y ∈ signs, ∃ d ∈ before, d.index = e.index ∧ d.sign = y := by
  obtain ⟨he, -⟩ := genuine_of_split hf hw hes (List.mem_append_right _ List.mem_cons_self)
  have hown : (entries g firsts follows).filter (fun d => d.index = e.index) =
    entriesOf firsts follows (e.production, e.index) := filter_entries he
  rw [hes, List.filter_append, List.filter_cons_of_pos (by simp)] at hown
  have hsigns := congrArg (List.map Entry.sign) hown
  rw [entriesOf, List.map_map, List.map_append, List.map_cons] at hsigns
  refine ⟨_, _, (List.map_id _).symm.trans hsigns.symm, ?_⟩
  intro y hy
  obtain ⟨d, hd, rfl⟩ := List.mem_map.mp hy
  obtain ⟨hd, hindex⟩ := List.mem_filter.mp hd
  exact ⟨d, hd, of_decide_eq_true hindex, rfl⟩

/-- The entry that is refused tells the first conflict. -/
theorem firstConflict_of_refused (hf : First.Exact g firsts) (hw : Follow.Exact g follows)
    (hes : entries g firsts follows = before ++ e :: after) {t : Table} (hr : Records g before t)
    {d : Entry α} (hfind : before.find? (Entry.inCell e.production.left e.sign) = some d)
    (hne : ¬ d.production.SameShape e.production) :
    g.FirstConflict d.index e.index d.production e.production e.sign := by
  have hdone : d ∈ before := List.mem_of_find?_eq_some hfind
  obtain ⟨hd, hdx⟩ := genuine_of_split hf hw hes (List.mem_append_left _ hdone)
  obtain ⟨he, hex⟩ := genuine_of_split hf hw hes (List.mem_append_right _ List.mem_cons_self)
  obtain ⟨hleft, hsign⟩ := Entry.inCell_iff.mp (List.find?_some hfind)
  have hlt : d.index < e.index := by
    refine Nat.lt_of_le_of_ne (index_le_of_mem_before hes hdone) fun hi => hne ?_
    rw [hi, he] at hd
    exact Option.some.inj hd ▸ .refl _
  have hcontests : g.Contests e.index e.sign :=
    ⟨d.index, hlt, d.production, e.production, hd, he, hleft, hne, hsign ▸ hdx, hex⟩
  refine ⟨hd, he, ⟨⟨e.sign, hcontests⟩, ?_⟩, hcontests, ?_, ?_⟩
  · rintro j ⟨x, hj⟩
    by_contra hle
    obtain ⟨i, hi, p, q, hp, hq, hpq, hshape, hpx, hqx⟩ := hj
    have hentry := mem_before_of_lt hf hw hes hq hqx (Nat.lt_of_not_le hle)
    exact not_contests_of_entered hf hw hes hr hentry
      ⟨i, hi, p, q, hp, hq, hpq, hshape, hpx, hqx⟩
  · obtain ⟨xs, ys, hinorder, hlookaheads⟩ := claimsInOrder_lookaheads hf hw e.production
    obtain ⟨signs, later, hsplit, hentered⟩ := lookaheads_of_split hf hw hes
    refine ⟨xs, ys, signs, later, hinorder, hlookaheads.symm.trans hsplit, ?_⟩
    intro y hy
    obtain ⟨d', hd', hindex, rfl⟩ := hentered y hy
    rw [← hindex]
    exact not_contests_of_entered hf hw hes hr hd'
  · refine isLeast_of_find? hf hw ?_
    rw [hes, List.find?_append, hfind, Option.some_or]

end Refused

/-- The table is filled, or the first conflict is told. -/
theorem fill_cases (hg : g.Valid) (hf : First.Exact g firsts) (hw : Follow.Exact g follows) :
    (∃ t, fill g firsts follows = .ok t) ∨ ∃ i j p q x, g.FirstConflict i j p q x ∧
      fill g firsts follows = .error (.conflict (g.nameOf (.nonTerminal q.left)) (g.nameOf x)
        (g.textOf p) (g.textOf q)) := by
  rcases enters_fill hg hf hw with ⟨t, hok, -⟩ | ⟨before, e, after, d, t, hes, hr, hfind, hne, herr⟩
  · exact .inl ⟨t, hok⟩
  · exact .inr ⟨_, _, _, _, _, firstConflict_of_refused hf hw hes hr hfind hne, herr⟩

end Table

/-! ## Results -/

/-- A grammar whose indices fit, with productions that conflict, has a first conflict, and its
compilation fails with this and with no other. -/
theorem reports_first_conflict (hg : g.validate = .ok ()) (hconflict : ¬ g.ClaimsAgree) :
    (∃ i j p q x, g.FirstConflict i j p q x) ∧
      ∀ i j p q x, g.FirstConflict i j p q x → ∃ fault, Compiled.ofGrammar g = .error fault ∧
        fault = .conflict (g.nameOf (.nonTerminal q.left)) (g.nameOf x) (g.textOf p) (g.textOf q) ∧
        (Failure.grammar fault).message = "grammar definition error: grammar is not LL(1): `" ++
          g.nameOf (.nonTerminal q.left) ++ "` on `" ++ g.nameOf x ++ "` is claimed by `" ++
          g.textOf p ++ "` and `" ++ g.textOf q ++ "`" := by
  have hv := Grammar.validate_eq_ok_iff.mp hg
  obtain ⟨firsts, follows, overlaps, hf, hw, heq⟩ := Compiled.ofGrammar_eq hv
  rcases Table.fill_cases hv hf hw with ⟨t, hok⟩ | ⟨i, j, p, q, x, hfirst, herr⟩
  · exact absurd ((Compiled.exists_eq_ok_iff g).mp ⟨_, heq.trans (congrArg _ hok)⟩).2 hconflict
  · refine ⟨⟨i, j, p, q, x, hfirst⟩, fun i' j' p' q' x' h => ?_⟩
    obtain ⟨-, -, rfl, rfl, rfl⟩ := hfirst.unique h
    exact ⟨_, heq.trans (congrArg _ herr), rfl, rfl⟩

/-- `S -> A c`, `A -> b | b | empty | A b`: behind the repeated production there are conflicts on
`b`, and both productions that follow are in one. -/
def quarrelling : Grammar Unit where
  terminals := ["a", "b", "c"]
  nonTerminals := ["S", "A"]
  productions := [{ left := 0, right := [.nonTerminal 1, .terminal 2] },
    { left := 1, right := [.terminal 1] }, { left := 1, right := [.terminal 1] },
    { left := 1, right := [] }, { left := 1, right := [.nonTerminal 1, .terminal 1] }]
  start := 0

theorem reports_first_conflict_quarrelling :
    quarrelling.validate = .ok () ∧ ¬ quarrelling.ClaimsAgree ∧
      ∃ i j p q x, quarrelling.FirstConflict i j p q x ∧ quarrelling.nameOf x = "b" ∧
        quarrelling.textOf p = "A -> b" ∧ quarrelling.textOf q = "A -> empty" := by
  have hvalid : quarrelling.validate = .ok () := rfl
  have herror : Compiled.ofGrammar quarrelling =
      .error (.conflict "A" "b" "A -> b" "A -> empty") := by decide +kernel
  have hconflict : ¬ quarrelling.ClaimsAgree := fun hagree => by
    obtain ⟨c, hc⟩ := (Compiled.exists_eq_ok_iff quarrelling).mpr ⟨hvalid, hagree⟩
    cases herror.symm.trans hc
  obtain ⟨⟨i, j, p, q, x, hfirst⟩, hreport⟩ := reports_first_conflict hvalid hconflict
  obtain ⟨fault, hfault, hnames, -⟩ := hreport i j p q x hfirst
  rw [herror, hnames] at hfault
  obtain ⟨-, hx, hp, hq⟩ := GrammarFault.conflict.inj (Except.error.inj hfault)
  exact ⟨hvalid, hconflict, i, j, p, q, x, hfirst, hx.symm, hp.symm, hq.symm⟩

end PredictiveParsing
