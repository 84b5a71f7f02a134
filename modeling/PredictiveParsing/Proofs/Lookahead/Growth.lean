import PredictiveParsing.Proofs.Lookahead.Follow

/-!
# Passes that tell whether a set grew

A pass may put the signs in one by one and keep a flag that is raised by every sign that was not
there before. `Flags` says that such a pass does what the pass without a flag does, faults included,
and that the flag is raised exactly when the family has changed in the end: no pass takes a sign
out, so a later step cannot undo an earlier one. `First.flags_pass` and `Follow.flags_pass` say this
of every grammar.

`passes_converge`: over a grammar whose indices fit, the loop that goes on while the flag is raised
ends at a fixed point, for the first sets and for the follow sets, after at most as many passes as
there are places for signs, and one.
-/

namespace PredictiveParsing

variable {α : Type} {g : Grammar α}

/-! ## Signs put in one by one -/

/-- Put the signs in one after the other; one that was not there raises the flag. -/
def SignSet.enterAll (signs : List Sign) (state : SignSet × Bool) : SignSet × Bool :=
  signs.foldl (fun (A, grew) s => (A.insert s, grew || decide (s ∉ A))) state

theorem flag_or {p q r : Prop} [Decidable p] [Decidable q] [Decidable r] (h : p ∨ q ↔ r)
    (grew : Bool) : ((grew || decide p) || decide q) = (grew || decide r) := by
  rw [Bool.or_assoc, ← Bool.decide_or, decide_eq_decide.mpr h]

/-- Of two steps up, one changes something just when both together do. -/
theorem ne_or_ne_iff {β : Type} {r : β → β → Prop} (hanti : ∀ {a b}, r a b → r b a → a = b)
    {a b c : β} (h : r a b) (h' : r b c) : b ≠ a ∨ c ≠ b ↔ c ≠ a := by
  constructor
  · rintro hne rfl
    have he : b = c := hanti h' h
    exact hne.elim (· he) (· he.symm)
  · intro hne
    by_contra! he
    exact hne (he.2.trans he.1)

theorem SignSet.enterAll_eq (signs : List Sign) (A : SignSet) (grew : Bool) :
    enterAll signs (A, grew) = (A.insertAll signs, grew || decide (A.insertAll signs ≠ A)) := by
  induction signs generalizing A grew with
  | nil => simp [enterAll, insertAll]
  | cons s signs ih =>
    have hnew : s ∉ A ↔ A.insert s ≠ A := by
      refine not_congr ⟨fun hs => eq_of_subset ?_ ?_, fun he => he ▸ mem_insert.mpr (.inl rfl)⟩
      · exact fun t ht => (mem_insert.mp ht).elim (· ▸ hs) id
      · exact fun t ht => mem_insert.mpr (.inr ht)
    have hor : s ∉ A ∨ (A.insert s).insertAll signs ≠ A.insert s ↔
        (A.insert s).insertAll signs ≠ A := by
      rw [hnew]
      exact ne_or_ne_iff (r := (· ⊆ ·)) eq_of_subset (fun t ht => mem_insert.mpr (.inr ht))
        fun t ht => mem_insertAll.mpr (.inl ht)
    exact (ih (A.insert s) _).trans (congrArg _ (flag_or hor grew))

namespace Family

/-- Put the members of `A` into the set of `nt`, one after the other. -/
def enter (nt : Nat) (A : SignSet) (state : Family × Bool) :
    Except GrammarFault (Family × Bool) := do
  let (B, grew) := SignSet.enterAll A.members (← state.1.at? nt, state.2)
  return (state.1.set nt B, grew)

/-- The step with a flag does what the other one does, and raises the flag when that changes
something; nothing is ever taken out. -/
structure Flags (grow : Family × Bool → Except GrammarFault (Family × Bool))
    (pass : Family → Except GrammarFault Family) : Prop where
  eq : ∀ sets grew, grow (sets, grew) =
    (pass sets).map fun next => (next, grew || decide (next ≠ sets))
  within : ∀ sets next, pass sets = .ok next → sets.Within next

theorem Flags.of_eq {grow grow' : Family × Bool → Except GrammarFault (Family × Bool)}
    {pass pass' : Family → Except GrammarFault Family} (h : Flags grow pass)
    (hgrow : ∀ state, grow' state = grow state) (hpass : ∀ sets, pass' sets = pass sets) :
    Flags grow' pass' := by
  rwa [funext hgrow, funext hpass]

theorem flags_done : Flags .ok .ok where
  eq sets grew := by simp [Except.map]
  within sets next h := Except.ok.inj h ▸ .refl sets

theorem flags_error (fault : GrammarFault) :
    Flags (fun _ => .error fault) fun _ => .error fault where
  eq _ _ := rfl
  within _ _ h := nomatch h

theorem flags_enter (nt : Nat) (A : SignSet) : Flags (enter nt A) fun sets => sets.join nt A where
  eq sets grew := by
    by_cases hn : nt < sets.length
    · have hnext : sets.entry nt ∪ A ≠ sets.entry nt ↔ sets.joined nt A ≠ sets := by
        refine not_congr ⟨fun he => ?_, fun he => ?_⟩
        · exact joined_of_subset hn fun s hs => he ▸ SignSet.mem_union.mpr (.inr hs)
        · have hentry : (sets.joined nt A).entry nt = sets.entry nt ∪ A := by
            simp [entry, joined, hn]
          rw [← hentry, he]
      have henter : SignSet.enterAll A.members (sets.entry nt, grew) =
          (sets.entry nt ∪ A, grew || decide (sets.joined nt A ≠ sets)) :=
        (SignSet.enterAll_eq ..).trans (congrArg (_, grew || ·) (decide_eq_decide.mpr hnext))
      simp only [enter, at?_eq hn, join_eq hn, henter, bind, Except.bind, pure, Except.pure]
      rfl
    · simp [enter, join, at?, hn, bind, Except.bind, Except.map]
  within sets next h := by
    by_cases hn : nt < sets.length
    · rw [join_eq hn] at h
      exact Except.ok.inj h ▸ within_joined sets nt A
    · simp [join, at?, hn, bind, Except.bind] at h

theorem Flags.andThen {grow grow' : Family × Bool → Except GrammarFault (Family × Bool)}
    {pass pass' : Family → Except GrammarFault Family} (h : Flags grow pass)
    (h' : Flags grow' pass') :
    Flags (fun state => grow state >>= grow') fun sets => pass sets >>= pass' where
  eq sets grew := by
    rw [h.eq]
    cases hnext : pass sets with
    | error fault => rfl
    | ok next =>
      simp only [Except.map, bind, Except.bind, h'.eq]
      cases hlast : pass' next with
      | error fault => rfl
      | ok last =>
        have hor := ne_or_ne_iff Within.antisymm (h.within sets next hnext)
          (h'.within next last hlast)
        simp only [flag_or hor]
  within sets last hlast := by
    cases hnext : pass sets with
    | error fault => simp [hnext, bind, Except.bind] at hlast
    | ok next =>
      rw [hnext] at hlast
      exact (h.within sets next hnext).trans (h'.within next last hlast)

/-- Both steps may go on from what they read off the family. -/
theorem Flags.read {β : Type} (read : Family → Except GrammarFault β)
    {grow : β → Family × Bool → Except GrammarFault (Family × Bool)}
    {pass : β → Family → Except GrammarFault Family} (h : ∀ b, Flags (grow b) (pass b)) :
    Flags (fun state => read state.1 >>= fun b => grow b state)
      fun sets => read sets >>= fun b => pass b sets where
  eq sets grew := by
    cases hb : read sets with
    | error fault => rfl
    | ok b => simpa [hb, bind, Except.bind] using (h b).eq sets grew
  within sets next hnext := by
    cases hb : read sets with
    | error fault => simp [hb, bind, Except.bind] at hnext
    | ok b => exact (h b).within sets next (by simpa [hb, bind, Except.bind] using hnext)

theorem Flags.foldlM {β : Type} {grow : β → Family × Bool → Except GrammarFault (Family × Bool)}
    {pass : β → Family → Except GrammarFault Family} (h : ∀ b, Flags (grow b) (pass b))
    (bs : List β) :
    Flags (fun state => bs.foldlM (fun state b => grow b state) state)
      fun sets => bs.foldlM (fun sets b => pass b sets) sets := by
  induction bs with
  | nil => exact flags_done
  | cons b bs ih =>
    simp only [List.foldlM_cons]
    exact (h b).andThen ih

/-! ## The loop while the flag is raised -/

/-- What comes from a family by any number of passes. -/
inductive Reached (grow : Family → Except GrammarFault (Family × Bool)) (start : Family) :
    Family → Prop
  | start : Reached grow start start
  | next {sets next : Family} {grew : Bool} (h : Reached grow start sets)
      (hgrow : grow sets = .ok (next, grew)) : Reached grow start next

/-- The loop that goes on while the flag is raised makes so many passes. -/
inductive Loops (grow : Family → Except GrammarFault (Family × Bool)) :
    Family → Family → Nat → Prop
  | last {sets settled : Family} (h : grow sets = .ok (settled, false)) : Loops grow sets settled 1
  | again {sets next settled : Family} {passes : Nat} (h : grow sets = .ok (next, true))
      (h' : Loops grow next settled passes) : Loops grow sets settled (passes + 1)

structure Converges (grow : Family → Except GrammarFault (Family × Bool)) (signs : List Sign)
    (start settled : Family) (passes : Nat) : Prop where
  /-- Each pass ends without a fault and takes nothing out, the flag tells whether a sign came in
  somewhere, and only `signs` come in. -/
  grows : ∀ sets, Reached grow start sets → ∃ next grew, grow sets = .ok (next, grew) ∧
    sets.Within next ∧ (grew = true ↔ ∃ nt, ∃ s ∈ next.entry nt, s ∉ sets.entry nt) ∧
    ∀ nt, ∀ s ∈ next.entry nt, s ∈ signs
  loops : Loops grow start settled passes
  /-- No later pass changes anything or raises the flag. -/
  rests : ∀ sets, Reached grow settled sets → sets = settled ∧ grow sets = .ok (settled, false)

theorem Within.ne_iff {sets next : Family} (h : sets.Within next) :
    next ≠ sets ↔ ∃ nt, ∃ s ∈ next.entry nt, s ∉ sets.entry nt := by
  constructor
  · intro hne
    by_contra! hall
    exact hne (Within.antisymm ⟨h.length_eq.symm, hall⟩ h)
  · rintro ⟨nt, s, hs, hnew⟩ rfl
    exact hnew hs

theorem Settles.fixed {pass : Family → Except GrammarFault Family} {sets settled : Family}
    {passes : Nat} (h : Settles pass sets settled passes) : pass settled = .ok settled := by
  induction h with
  | last h => exact h
  | again _ _ _ ih => exact ih

section Flags

variable {grow : Family × Bool → Except GrammarFault (Family × Bool)}
  {pass : Family → Except GrammarFault Family} (h : Flags grow pass)

include h

theorem Flags.grow_eq {sets next : Family} (hnext : pass sets = .ok next) :
    grow (sets, false) = .ok (next, decide (next ≠ sets)) := by
  rw [h.eq, hnext]
  rfl

theorem Flags.loops {sets settled : Family} {passes : Nat}
    (hloop : Settles pass sets settled passes) :
    Loops (fun sets => grow (sets, false)) sets settled passes := by
  induction hloop with
  | last hnext => exact .last (by simpa using h.grow_eq hnext)
  | again hnext hne _ ih => exact .again (by simpa [hne] using h.grow_eq hnext) ih

variable {Inv : Family → Prop} (hpass : ∀ sets, Inv sets → ∃ next, pass sets = .ok next ∧ Inv next)

include hpass

/-- Every pass but the last one puts something in, so there are no more than there is room. -/
theorem Flags.passes_le {top : Nat} (htop : ∀ sets : Family, Inv sets → sets.size ≤ top)
    {sets settled : Family} {passes : Nat} (hs : Inv sets)
    (hloop : Settles pass sets settled passes) : sets.size + passes ≤ top + 1 := by
  induction hloop with
  | @last sets => exact Nat.succ_le_succ (htop sets hs)
  | @again sets next _ passes hnext hne _ ih =>
    obtain ⟨next', hnext', hi⟩ := hpass sets hs
    obtain rfl : next = next' := Except.ok.inj (hnext.symm.trans hnext')
    have hlt := (h.within sets next hnext).size_lt hne
    have hrest := ih hi
    omega

/-- What every pass keeps and what bounds the members carries over to the loop with the flag. -/
theorem Flags.converges {signs : List Sign}
    (hsigns : ∀ sets : Family, Inv sets → ∀ nt, ∀ s ∈ sets.entry nt, s ∈ signs)
    {start settled : Family} {passes : Nat} (hs : Inv start)
    (hloop : Settles pass start settled passes) :
    Converges (fun sets => grow (sets, false)) signs start settled passes := by
  have hreached : ∀ sets, Reached (fun sets => grow (sets, false)) start sets → Inv sets := by
    intro sets hr
    induction hr with
    | start => exact hs
    | @next sets next grew _ hgrow ih =>
      obtain ⟨next', hnext, hi⟩ := hpass sets ih
      obtain ⟨rfl, -⟩ := Prod.ext_iff.mp (Except.ok.inj ((h.grow_eq hnext).symm.trans hgrow))
      exact hi
  have hrest : grow (settled, false) = .ok (settled, false) := by
    simpa using h.grow_eq hloop.fixed
  refine ⟨fun sets hr => ?_, h.loops hloop, fun sets hr => ?_⟩
  · obtain ⟨next, hnext, hi⟩ := hpass sets (hreached sets hr)
    have hw := h.within sets next hnext
    refine ⟨next, decide (next ≠ sets), h.grow_eq hnext, hw, ?_, hsigns next hi⟩
    rw [decide_eq_true_iff, hw.ne_iff]
  · have he : sets = settled := by
      induction hr with
      | start => rfl
      | @next sets next grew _ hgrow ih =>
        subst ih
        exact (Prod.ext_iff.mp (Except.ok.inj (hrest.symm.trans hgrow))).1.symm
    exact ⟨he, he ▸ hrest⟩

end Flags

end Family

namespace First

def growVisit (p : Production α) (state : Family × Bool) : Except GrammarFault (Family × Bool) := do
  Family.enter p.left (← firstOf state.1 p.right) state

/-- One pass over the productions, and whether a set grew. -/
def grow (g : Grammar α) (sets : Family) : Except GrammarFault (Family × Bool) :=
  g.productions.foldlM (fun state p => growVisit p state) (sets, false)

theorem flags_visit (p : Production α) : Family.Flags (growVisit p) fun sets => visit sets p :=
  Family.Flags.read (fun sets => firstOf sets p.right) (Family.flags_enter p.left)

theorem flags_pass (g : Grammar α) :
    Family.Flags (fun state => g.productions.foldlM (fun state p => growVisit p state) state)
      (pass g) :=
  Family.Flags.foldlM flags_visit g.productions

end First

namespace Follow

def growInherit (left n : Nat) (state : Family × Bool) : Except GrammarFault (Family × Bool) := do
  if n = left then return state
  Family.enter n (← state.1.at? left) state

def growSign (firsts : Family) (left n : Nat) (rest : List Sign) (state : Family × Bool) :
    Except GrammarFault (Family × Bool) := do
  if rest = [] then growInherit left n state
  else
    let first ← firstOf firsts rest
    let state ← Family.enter n first.withoutEmpty state
    if .empty ∈ first then growInherit left n state else return state

def growSigns (firsts : Family) (left : Nat) :
    List Sign → Family × Bool → Except GrammarFault (Family × Bool)
  | [], state => .ok state
  | .terminal _ :: rest, state => growSigns firsts left rest state
  | .nonTerminal n :: rest, state => do
    growSigns firsts left rest (← growSign firsts left n rest state)
  | s :: _, _ => .error (.misplaced s)

def growVisit (g : Grammar α) (firsts : Family) (p : Production α) (state : Family × Bool) :
    Except GrammarFault (Family × Bool) := do
  let state ← if p.left = g.start then Family.enter p.left (.singleton .pound) state else pure state
  growSigns firsts p.left p.right state

/-- One pass over the productions, and whether a set grew. -/
def grow (g : Grammar α) (firsts sets : Family) : Except GrammarFault (Family × Bool) :=
  g.productions.foldlM (fun state p => growVisit g firsts p state) (sets, false)

theorem flags_inherit (left n : Nat) : Family.Flags (growInherit left n) (inherit left n) := by
  by_cases h : n = left
  · exact Family.flags_done.of_eq (fun state => by simp [growInherit, h, pure, Except.pure])
      fun sets => by simp [inherit, h, pure, Except.pure]
  · exact (Family.Flags.read (fun sets => sets.at? left) (Family.flags_enter n)).of_eq
      (fun state => by simp [growInherit, h]) fun sets => by simp [inherit, h]

theorem flags_sign (firsts : Family) (left n : Nat) (rest : List Sign) :
    Family.Flags (growSign firsts left n rest) (visitSign firsts left n rest) := by
  by_cases h : rest = []
  · exact (flags_inherit left n).of_eq (fun state => by simp [growSign, h])
      fun sets => by simp [visitSign, h]
  · have hvanish : ∀ first : SignSet, Family.Flags
        (fun state => if .empty ∈ first then growInherit left n state else .ok state)
        fun sets => if .empty ∈ first then inherit left n sets else .ok sets := by
      intro first
      split
      · exact flags_inherit left n
      · exact Family.flags_done
    have hjoin := fun first : SignSet =>
      (Family.flags_enter n first.withoutEmpty).andThen (hvanish first)
    exact (Family.Flags.read (fun _ => firstOf firsts rest) hjoin).of_eq
      (fun state => by simp [growSign, h, pure, Except.pure])
      fun sets => by simp [visitSign, h, pure, Except.pure]

theorem flags_signs (firsts : Family) (left : Nat) (u : List Sign) :
    Family.Flags (growSigns firsts left u) (visitSigns firsts left u) := by
  induction u with
  | nil => exact Family.flags_done
  | cons s u ih =>
    cases s with
    | terminal t => exact ih
    | nonTerminal n => exact (flags_sign firsts left n u).andThen ih
    | empty => exact Family.flags_error (.misplaced .empty)
    | pound => exact Family.flags_error (.misplaced .pound)

theorem flags_visit (g : Grammar α) (firsts : Family) (p : Production α) :
    Family.Flags (growVisit g firsts p) fun sets => visit g firsts sets p := by
  have hsigns := flags_signs firsts p.left p.right
  by_cases h : p.left = g.start
  · exact ((Family.flags_enter p.left (.singleton .pound)).andThen hsigns).of_eq
      (fun state => by simp [growVisit, h]) fun sets => by simp [visit, h]
  · exact hsigns.of_eq (fun state => by simp [growVisit, h]) fun sets => by simp [visit, h]

theorem flags_pass (g : Grammar α) (firsts : Family) :
    Family.Flags
      (fun state => g.productions.foldlM (fun state p => growVisit g firsts p state) state)
      (pass g firsts) :=
  Family.Flags.foldlM (flags_visit g firsts) g.productions

end Follow

/-! ## Results -/

/-- From empty sets, the passes for the first sets and those for the follow sets go on until they
find nothing to put in, and they end there. -/
theorem passes_converge (hg : g.validate = .ok ()) :
    ∃ firsts passes follows passes', First.compute g = .ok (firsts, passes) ∧
      Follow.compute g firsts = .ok (follows, passes') ∧
      Family.Converges (First.grow g) (First.signs g) (Family.blank g.nonTerminals.length)
        firsts passes ∧
      Family.Converges (Follow.grow g firsts) (Follow.signs g)
        (Family.blank g.nonTerminals.length) follows passes' ∧
      passes ≤ g.nonTerminals.length * (g.terminals.length + 1) + 1 ∧
      passes' ≤ g.nonTerminals.length * (g.terminals.length + 1) + 1 := by
  have hvalid := Grammar.validate_eq_ok_iff.mp hg
  obtain ⟨firsts, passes, hfok, hfloop, hf⟩ := First.compute_exact hvalid
  obtain ⟨follows, passes', hok, hloop, -⟩ := Follow.compute_exact hvalid hf
  have hfpass : ∀ sets, First.Sound g sets →
      ∃ next, First.pass g sets = .ok next ∧ First.Sound g next := fun sets h =>
    ⟨First.passed g sets, First.pass_eq hvalid h.length_eq, h.passed hvalid⟩
  have hpass : ∀ sets, Follow.Sound g sets →
      ∃ next, Follow.pass g firsts sets = .ok next ∧ Follow.Sound g next := fun sets h =>
    ⟨Follow.passed g firsts sets, Follow.pass_eq hvalid hf.length_eq h.length_eq,
      h.passed hf hvalid⟩
  have hfle := (First.flags_pass g).passes_le hfpass (fun _ h => h.size_le hvalid)
    (First.sound_blank g) hfloop
  have hle := (Follow.flags_pass g firsts).passes_le hpass (fun _ h => h.size_le hvalid)
    (Follow.sound_blank g) hloop
  exact ⟨firsts, passes, follows, passes', hfok, hok,
    (First.flags_pass g).converges hfpass (fun _ h => h.mem_signs hvalid) (First.sound_blank g)
      hfloop,
    (Follow.flags_pass g firsts).converges hpass (fun _ h => h.mem_signs hvalid)
      (Follow.sound_blank g) hloop,
    by omega, by omega⟩

theorem passes_converge_recursive : recursive.validate = .ok () ∧
    ∃ firsts passes follows passes', First.compute recursive = .ok (firsts, passes) ∧
      Follow.compute recursive firsts = .ok (follows, passes') ∧
      First.grow recursive firsts = .ok (firsts, false) ∧
      Follow.grow recursive firsts follows = .ok (follows, false) ∧ passes ≤ 13 ∧ passes' ≤ 13 := by
  have hvalid : recursive.validate = .ok () := rfl
  obtain ⟨firsts, passes, follows, passes', hfok, hok, hf, h, hfle, hle⟩ := passes_converge hvalid
  exact ⟨hvalid, firsts, passes, follows, passes', hfok, hok, (hf.rests firsts .start).2,
    (h.rests follows .start).2, hfle, hle⟩

end PredictiveParsing
