import PredictiveParsing.Proofs.Grammar.Valid
import PredictiveParsing.Proofs.Lookahead.Family

/-!
# First sets are exact

`Begins u s` says in terms of derivations what the sign `s` means in the first set of `u`: a
terminal that `u` can begin with, or the empty word when `u` can vanish. The main result,
`first_sets_exact`, says for a grammar whose indices fit that the passes come to an end, that the
first set of any list of signs has exactly these members, and that so has the set kept for a
non-terminal. Soundness is kept by every visit of a production; completeness follows from the fixed
point by induction on an unfolding.
-/

namespace PredictiveParsing

variable {α : Type} {g : Grammar α}

def Grammar.Begins (g : Grammar α) (u : List Sign) : Sign → Prop
  | .terminal t => g.Leads u (.terminal t)
  | .empty => g.Derives u []
  | _ => False

/-- What follows a non-terminal that can vanish takes the place of the empty word. -/
theorem Grammar.begins_cons {s' : Sign} {u : List Sign} {s : Sign} :
    g.Begins (s' :: u) s ↔
      g.Begins [s'] s ∧ s ≠ .empty ∨ g.Derives [s'] [] ∧ g.Begins u s := by
  cases s with
  | terminal t => simpa [Begins] using leads_append (u := [s']) (v := u) (s := .terminal t)
  | empty => simpa [Begins] using Derives.vanishes_append (g := g) (u := [s']) (v := u)
  | nonTerminal n => simp [Begins]
  | pound => simp [Begins]

/-- The first set of a sequence that `firstOf` reads off the family. -/
def firstSet (sets : Family) : List Sign → SignSet
  | [] => .singleton .empty
  | .terminal t :: _ => .singleton (.terminal t)
  | .nonTerminal n :: rest =>
    if .empty ∈ sets.entry n then (sets.entry n).withoutEmpty ∪ firstSet sets rest
    else sets.entry n
  | _ :: _ => ∅

/-- Terminals, and non-terminals that the family has a set for. -/
def Family.covers (sets : Family) : Sign → Bool
  | .terminal _ => true
  | .nonTerminal n => decide (n < sets.length)
  | .empty => false
  | .pound => false

def Family.Covers (sets : Family) (u : List Sign) : Prop := ∀ s ∈ u, sets.covers s = true

instance (sets : Family) (u : List Sign) : Decidable (sets.Covers u) :=
  inferInstanceAs (Decidable (∀ s ∈ u, _))

theorem Family.covers_nonTerminal {sets : Family} {n : Nat} :
    sets.covers (.nonTerminal n) = true ↔ n < sets.length :=
  decide_eq_true_iff

theorem Family.covers_cons {sets : Family} {s : Sign} {u : List Sign} :
    sets.Covers (s :: u) ↔ sets.covers s = true ∧ sets.Covers u :=
  List.forall_mem_cons

theorem firstOf_of_covers {sets : Family} {u : List Sign} (hu : sets.Covers u) :
    firstOf sets u = .ok (firstSet sets u) := by
  induction u with
  | nil => rfl
  | cons s u ih =>
    obtain ⟨hs, hu'⟩ := Family.covers_cons.mp hu
    cases s with
    | terminal t => rfl
    | nonTerminal n =>
      have hn : n < sets.length := Family.covers_nonTerminal.mp hs
      simp only [firstOf, firstSet, Family.at?_eq hn, ih hu', bind, Except.bind, pure, Except.pure]
      split <;> rfl
    | empty => cases hs
    | pound => cases hs

theorem firstOf_eq {sets : Family} (hl : sets.length = g.nonTerminals.length) {u : List Sign}
    (hu : g.Fits u) : firstOf sets u = .ok (firstSet sets u) := by
  refine firstOf_of_covers fun s hs => ?_
  rcases hu.terminal_or_nonTerminal hs with ⟨i, rfl, -⟩ | ⟨n, rfl, hn⟩
  · rfl
  · exact Family.covers_nonTerminal.mpr (hl ▸ hn)

theorem mem_firstSet_nonTerminal {sets : Family} {n : Nat} {u : List Sign} {s : Sign} :
    s ∈ firstSet sets (.nonTerminal n :: u) ↔
      s ∈ sets.entry n ∧ s ≠ .empty ∨ .empty ∈ sets.entry n ∧ s ∈ firstSet sets u := by
  rw [firstSet]
  split
  next h => simp [h]
  next h =>
    simp only [h, false_and, or_false]
    exact ⟨fun hs => ⟨hs, fun he => h (he ▸ hs)⟩, And.left⟩

namespace First

/-! ## Passes -/

def visited (sets : Family) (p : Production α) : Family :=
  sets.joined p.left (firstSet sets p.right)

def passed (g : Grammar α) (sets : Family) : Family := g.productions.foldl visited sets

theorem within_visited (sets : Family) (p : Production α) : sets.Within (visited sets p) :=
  Family.within_joined ..

theorem visit_eq (hg : g.Valid) {sets : Family} (hl : sets.length = g.nonTerminals.length)
    {p : Production α} (hp : p ∈ g.productions) : visit sets p = .ok (visited sets p) := by
  have hn : p.left < sets.length := hl ▸ hg.left_lt p hp
  simp [visit, visited, firstOf_eq hl (hg.right_fits p hp), Family.join_eq hn, bind, Except.bind]

theorem pass_eq (hg : g.Valid) {sets : Family} (hl : sets.length = g.nonTerminals.length) :
    pass g sets = .ok (passed g sets) :=
  Family.foldlM_eq_foldl (fun _ _ hp hs => visit_eq hg hs hp)
    (fun sets p => (within_visited sets p).length_eq.symm) hl

/-! ## Soundness -/

structure Sound (g : Grammar α) (sets : Family) : Prop where
  length_eq : sets.length = g.nonTerminals.length
  begins : ∀ n, ∀ s ∈ sets.entry n, g.Begins [.nonTerminal n] s

theorem Sound.begins_of_mem {sets : Family} (h : Sound g sets) {u : List Sign} {s : Sign}
    (hs : s ∈ firstSet sets u) : g.Begins u s := by
  induction u with
  | nil =>
    obtain rfl := SignSet.mem_singleton.mp hs
    exact .refl []
  | cons s' u ih =>
    cases s' with
    | terminal t =>
      obtain rfl := SignSet.mem_singleton.mp hs
      exact ⟨u, .refl _⟩
    | nonTerminal n =>
      rw [Grammar.begins_cons]
      rcases mem_firstSet_nonTerminal.mp hs with ⟨hs, hne⟩ | ⟨he, hs⟩
      · exact .inl ⟨h.begins n s hs, hne⟩
      · exact .inr ⟨h.begins n .empty he, ih hs⟩
    | empty => exact absurd hs (SignSet.not_mem_empty s)
    | pound => exact absurd hs (SignSet.not_mem_empty s)

theorem begins_of_production {p : Production α} (hp : p ∈ g.productions) {s : Sign}
    (h : g.Begins p.right s) : g.Begins [.nonTerminal p.left] s := by
  cases s with
  | terminal t => exact h.of_derives (.of_production hp)
  | empty => exact (Grammar.Derives.of_production hp).trans h
  | nonTerminal n => exact h
  | pound => exact h

theorem Sound.visited (hg : g.Valid) {sets : Family} (h : Sound g sets) {p : Production α}
    (hp : p ∈ g.productions) : Sound g (visited sets p) := by
  have hn : p.left < sets.length := h.length_eq ▸ hg.left_lt p hp
  refine ⟨by simpa [First.visited] using h.length_eq, fun n s hs => ?_⟩
  rcases (Family.mem_entry_joined hn).mp hs with hold | ⟨rfl, hnew⟩
  · exact h.begins n s hold
  · exact begins_of_production hp (h.begins_of_mem hnew)

theorem Sound.passed (hg : g.Valid) {sets : Family} (h : Sound g sets) :
    Sound g (passed g sets) :=
  List.foldlRecOn g.productions First.visited h fun _ h _ hp => h.visited hg hp

theorem sound_blank (g : Grammar α) : Sound g (Family.blank g.nonTerminals.length) :=
  ⟨Family.length_blank _, fun n s hs => absurd hs (by simp)⟩

/-- The terminals and the empty word. -/
def signs (g : Grammar α) : List Sign := .empty :: (List.range g.terminals.length).map .terminal

theorem Sound.mem_signs (hg : g.Valid) {sets : Family} (h : Sound g sets) (n : Nat) :
    ∀ s ∈ sets.entry n, s ∈ signs g := by
  intro s hs
  have hb := h.begins n s hs
  cases s with
  | terminal t =>
    obtain ⟨v, hv⟩ := hb
    have ht := (hg.mem_or_fits_of_derives hv _ List.mem_cons_self).resolve_left (by simp)
    simpa [signs] using Grammar.fits_terminal.mp ht
  | empty => exact List.mem_cons_self
  | nonTerminal m => exact hb.elim
  | pound => exact hb.elim

theorem Sound.size_le (hg : g.Valid) {sets : Family} (h : Sound g sets) :
    sets.size ≤ g.nonTerminals.length * (g.terminals.length + 1) := by
  simpa [h.length_eq, signs] using Family.size_le (h.mem_signs hg)

/-! ## Completeness -/

/-- Every production's first set is in the set of its left side. -/
def Closed (g : Grammar α) (sets : Family) : Prop :=
  ∀ p ∈ g.productions, ∀ s ∈ firstSet sets p.right, s ∈ sets.entry p.left

theorem closed_of_fixed (hg : g.Valid) {sets : Family}
    (hl : sets.length = g.nonTerminals.length) (hf : passed g sets = sets) : Closed g sets := by
  intro p hp s hs
  have hn : p.left < sets.length := hl ▸ hg.left_lt p hp
  have hv : visited sets p = sets := Family.foldl_fixed within_visited hf p hp
  rw [← hv]
  exact (Family.mem_entry_joined hn).mpr (.inr ⟨rfl, hs⟩)

theorem Closed.mem_firstSet {sets : Family} (h : Closed g sets) {u v : List Sign}
    (hu : g.Unfolds u v) : (v = [] → .empty ∈ firstSet sets u) ∧
      ∀ t w, v = .terminal t :: w → .terminal t ∈ firstSet sets u := by
  induction hu with
  | nil => exact ⟨fun _ => SignSet.mem_singleton.mpr rfl, fun _ _ e => nomatch e⟩
  | keep s _ _ =>
    refine ⟨fun e => (nomatch e), fun t w e => ?_⟩
    obtain ⟨rfl, -⟩ := List.cons.inj e
    exact SignSet.mem_singleton.mpr rfl
  | @expand p hp x u v _ _ ihb ihr =>
    simp only [mem_firstSet_nonTerminal]
    cases x with
    | nil =>
      have hempty : .empty ∈ sets.entry p.left := h p hp _ (ihb.1 rfl)
      exact ⟨fun e => .inr ⟨hempty, ihr.1 e⟩, fun t w e => .inr ⟨hempty, ihr.2 t w e⟩⟩
    | cons s x =>
      refine ⟨fun e => (nomatch e), fun t w e => .inl ⟨?_, Sign.noConfusion⟩⟩
      obtain ⟨rfl, -⟩ := List.cons.inj e
      exact h p hp _ (ihb.2 t x rfl)

theorem Closed.mem_of_begins {sets : Family} (h : Closed g sets) {u : List Sign} {s : Sign}
    (hb : g.Begins u s) : s ∈ firstSet sets u := by
  cases s with
  | terminal t =>
    obtain ⟨v, hv⟩ := hb
    exact (h.mem_firstSet (Grammar.derives_iff_unfolds.mp hv)).2 t v rfl
  | empty => exact (h.mem_firstSet (Grammar.derives_iff_unfolds.mp hb)).1 rfl
  | nonTerminal n => exact hb.elim
  | pound => exact hb.elim

/-! ## The computation -/

structure Exact (g : Grammar α) (firsts : Family) : Prop where
  length_eq : firsts.length = g.nonTerminals.length
  mem_firstSet : ∀ u s, s ∈ firstSet firsts u ↔ g.Begins u s

theorem compute_exact (hg : g.Valid) :
    ∃ firsts passes, compute g = .ok (firsts, passes) ∧
      Family.Settles (pass g) (Family.blank g.nonTerminals.length) firsts passes ∧
      Exact g firsts := by
  obtain ⟨firsts, passes, hok, hloop, hs, hf⟩ :=
    Family.settle_spec (fun _ h => pass_eq hg h.length_eq) (fun _ h => h.passed hg)
      (Family.within_foldl within_visited g.productions) (fun _ h => h.size_le hg)
      (Family.passBound g) _
      (sound_blank g) (by simp only [Family.passBound]; omega)
  have hv : g.validate = .ok () := Grammar.validate_eq_ok_iff.mpr hg
  refine ⟨firsts, passes, by simp [compute, hv, hok, bind, Except.bind], hloop, hs.length_eq, ?_⟩
  exact fun u s => ⟨hs.begins_of_mem, (closed_of_fixed hg hs.length_eq hf).mem_of_begins⟩

/-- The set kept for a non-terminal is its first set as a list of one sign. -/
theorem Exact.mem_entry {firsts : Family} (h : Exact g firsts) {n : Nat} {s : Sign} :
    s ∈ firsts.entry n ↔ g.Begins [.nonTerminal n] s := by
  rw [← h.mem_firstSet, mem_firstSet_nonTerminal, firstSet, SignSet.mem_singleton]
  by_cases hs : s = .empty
  · simp [hs]
  · simp [hs]

end First

/-! ## Results -/

/-- `S -> N S a | b` with `N -> M | empty` and `M -> N`, and an `L` without productions. -/
def recursive : Grammar Unit where
  terminals := ["a", "b"]
  nonTerminals := ["S", "N", "M", "L"]
  productions := [{ left := 0, right := [.nonTerminal 1, .nonTerminal 0, .terminal 0] },
    { left := 0, right := [.terminal 1] }, { left := 1, right := [.nonTerminal 2] },
    { left := 1, right := [] }, { left := 2, right := [.nonTerminal 1] }]
  start := 0

/-- The first sets are computed, and they have what derivations begin with. -/
theorem first_sets_exact (hg : g.validate = .ok ()) :
    ∃ firsts passes, First.compute g = .ok (firsts, passes) ∧
      Family.Settles (First.pass g) (Family.blank g.nonTerminals.length) firsts passes ∧
      (∀ u, g.Fits u → ∃ A, firstOf firsts u = .ok A ∧ ∀ s, s ∈ A ↔ g.Begins u s) ∧
      ∀ n < g.nonTerminals.length, ∃ A, firsts.at? n = .ok A ∧
        ∀ s, s ∈ A ↔ g.Begins [.nonTerminal n] s := by
  obtain ⟨firsts, passes, hok, hloop, hexact⟩ :=
    First.compute_exact (Grammar.validate_eq_ok_iff.mp hg)
  refine ⟨firsts, passes, hok, hloop, fun u hu => ?_, fun n hn => ?_⟩
  · exact ⟨firstSet firsts u, firstOf_eq hexact.length_eq hu, hexact.mem_firstSet u⟩
  · exact ⟨firsts.entry n, Family.at?_eq (hexact.length_eq.symm ▸ hn), fun _ => hexact.mem_entry⟩

theorem first_sets_exact_recursive : recursive.validate = .ok () ∧
    ∃ firsts passes, First.compute recursive = .ok (firsts, passes) ∧
      ∃ A, firstOf firsts [.nonTerminal 2, .nonTerminal 0, .terminal 0] = .ok A ∧
        .terminal 1 ∈ A ∧ .pound ∉ A := by
  have hvalid : recursive.validate = .ok () := rfl
  obtain ⟨firsts, passes, hok, -, hsequence, -⟩ := first_sets_exact hvalid
  obtain ⟨A, hA, hmem⟩ := hsequence [.nonTerminal 2, .nonTerminal 0, .terminal 0] (by decide)
  have hN : recursive.Derives [.nonTerminal 1] [] :=
    Grammar.Derives.of_production (p := { left := 1, right := [] }) (by decide)
  have hM : recursive.Derives [.nonTerminal 2] [] :=
    (Grammar.Derives.of_production (p := { left := 2, right := [.nonTerminal 1] })
      (by decide)).trans hN
  have hS : recursive.Derives [.nonTerminal 0] [.terminal 1] :=
    Grammar.Derives.of_production (p := { left := 0, right := [.terminal 1] }) (by decide)
  have hb : recursive.Leads [.nonTerminal 2, .nonTerminal 0, .terminal 0] (.terminal 1) :=
    ⟨[.terminal 0], hM.append (hS.append_right [.terminal 0])⟩
  exact ⟨hvalid, firsts, passes, hok, A, hA, (hmem (.terminal 1)).mpr hb, (hmem .pound).mp⟩

end PredictiveParsing
