import Mathlib.Data.List.Forall2
import Mathlib.Data.List.Induction
import Mathlib.Data.List.Nodup
import PredictiveParsing.Grammar.Declaration
import PredictiveParsing.Proofs.Grammar.Valid

/-!
# Declared grammars

When the names of a declaration resolve, and what the grammar is then.

* `lastIndexOf_eq_some_iff`: a name that is declared once is found at its only place, so looking a
  sign up undoes naming it (`terminal_eq_some_iff`, `nonTerminal_eq_some_iff`);
* `join_getElem?_placeAll`, `length_placeAll_le_iff`: a list of slots has at a position what was
  placed there last, and it is no longer than it must be;
* `allSlots?_eq_some_iff`: such a list is made when every position is within its room;
* `exists_build_iff`, `made_of_build`: the declarations that have a grammar, and that grammar.
-/

namespace PredictiveParsing

variable {α : Type}

theorem Building.run_bind_eq {β γ : Type} {x : Building β} {f : β → Building γ} {c : γ} :
    (x >>= f).run = some (.ok c) ↔ ∃ b, x.run = some (.ok b) ∧ (f b).run = some (.ok c) := by
  rw [ExceptT.run_bind]
  rcases x.run with _ | _ | b <;> simp

theorem Building.run_liftM_eq {β : Type} {o : Option β} {b : β} :
    (liftM o : Building β).run = some (.ok b) ↔ o = some b := by
  cases o with
  | none => exact ⟨nofun, nofun⟩
  | some b' => simp [liftM, monadLift, MonadLift.monadLift, ExceptT.run_lift]

/-! ## Names -/

namespace Grammar

theorem lastIndexOf_eq_none_iff {name : String} {names : List String} :
    lastIndexOf name names = none ↔ name ∉ names := by
  induction names with
  | nil => simp [lastIndexOf]
  | cons n names ih =>
    rw [lastIndexOf, List.mem_cons, not_or, ← ih]
    cases lastIndexOf name names with
    | none => simp [eq_comm]
    | some i => simp

theorem exists_lastIndexOf_iff {name : String} {names : List String} :
    (∃ i, lastIndexOf name names = some i) ↔ name ∈ names := by
  rw [← Option.ne_none_iff_exists', ne_eq, lastIndexOf_eq_none_iff, not_not]

/-- A name that stands once is found where it stands. -/
theorem lastIndexOf_eq_some_iff {name : String} {names : List String} (h : names.Nodup) {i : Nat} :
    lastIndexOf name names = some i ↔ names[i]? = some name := by
  refine ⟨fun hi => (lastIndexOf_lt hi).2, fun hi => ?_⟩
  obtain ⟨j, hj⟩ := exists_lastIndexOf_iff.mpr (List.mem_of_getElem? hi)
  have hlt := (List.getElem?_eq_some_iff.mp hi).1
  rw [hj, (List.getElem?_inj hlt h).mp (hi.trans (lastIndexOf_lt hj).2.symm)]

theorem lastIndexOf_eq_some_iff_getD {name other : String} {names : List String}
    (h : names.Nodup) {i : Nat} :
    lastIndexOf name names = some i ↔ i < names.length ∧ (names[i]?).getD other = name := by
  rw [lastIndexOf_eq_some_iff h]
  constructor
  · intro hi
    exact ⟨(List.getElem?_eq_some_iff.mp hi).1, by rw [hi, Option.getD_some]⟩
  · rintro ⟨hlt, hi⟩
    rwa [List.getElem?_eq_getElem hlt, Option.getD_some, ← Option.some_inj,
      ← List.getElem?_eq_getElem hlt] at hi

/-- Looking up a terminal by its name undoes naming it. -/
theorem terminal_eq_some_iff {g : Grammar α} (h : g.terminals.Nodup) {name : String} {s : Sign} :
    g.terminal name = some s ↔ s.isTerminal = true ∧ g.fits s = true ∧ g.nameOf s = name := by
  rw [terminal, Option.map_eq_some_iff]
  cases s with
  | terminal i =>
    rw [fits_terminal, nameOf, ← lastIndexOf_eq_some_iff_getD h]
    simp [Sign.isTerminal]
  | nonTerminal n => simp [Sign.isTerminal]
  | empty => simp [Sign.isTerminal]
  | pound => simp [Sign.isTerminal]

theorem nonTerminal_eq_some_iff {g : Grammar α} (h : g.nonTerminals.Nodup) {name : String}
    {s : Sign} : g.nonTerminal name = some s ↔
      s.isNonTerminal = true ∧ g.fits s = true ∧ g.nameOf s = name := by
  rw [nonTerminal, Option.map_eq_some_iff]
  cases s with
  | nonTerminal n =>
    rw [fits_nonTerminal, nameOf, ← lastIndexOf_eq_some_iff_getD h]
    simp [Sign.isNonTerminal]
  | terminal i => simp [Sign.isNonTerminal]
  | empty => simp [Sign.isNonTerminal]
  | pound => simp [Sign.isNonTerminal]

end Grammar

theorem firstRepeated_eq_none_iff {seen names : List String} :
    firstRepeated seen names = none ↔ names.Nodup ∧ ∀ n ∈ names, n ∉ seen := by
  induction names generalizing seen with
  | nil => simp [firstRepeated]
  | cons n names ih =>
    rw [firstRepeated]
    split
    next hn => simp [hn]
    next hn =>
      simp only [ih, List.nodup_cons, List.mem_cons, not_or, forall_eq_or_imp]
      constructor
      · rintro ⟨hnodup, hseen⟩
        exact ⟨⟨fun hmem => (hseen n hmem).1 rfl, hnodup⟩, hn, fun m hm => (hseen m hm).2⟩
      · rintro ⟨⟨hfirst, hnodup⟩, -, hseen⟩
        exact ⟨hnodup, fun m hm => ⟨fun he => hfirst (he ▸ hm), hseen m hm⟩⟩

/-! ## Slots -/

namespace Rule

/-- The list with `action` at `position`, however long it must be for that. -/
def place (slots : List (Option α)) (position : Nat) (action : α) : List (Option α) :=
  (slots ++ List.replicate (position + 1 - slots.length) none).set position (some action)

theorem place?_eq (room : Nat) (slots : List (Option α)) (position : Nat) (action : α) :
    place? room slots position action =
      if position < max room slots.length then some (place slots position action) else none := by
  by_cases hlt : position < slots.length
  · have hlong : position + 1 - slots.length = 0 := by omega
    have hmax : position < max room slots.length := by omega
    simp [place?, place, hlt, hlong, hmax]
  · have hmax : position < max room slots.length ↔ position + 1 ≤ room := by omega
    by_cases hroom : position + 1 ≤ room <;> simp [place?, lengthen?, place, hlt, hmax, hroom]

theorem length_place (slots : List (Option α)) (position : Nat) (action : α) :
    (place slots position action).length = max slots.length (position + 1) := by
  rw [place, List.length_set, List.length_append, List.length_replicate]
  omega

theorem join_getElem?_place (slots : List (Option α)) (position : Nat) (action : α) (j : Nat) :
    (place slots position action)[j]?.join =
      if j = position then some action else slots[j]?.join := by
  by_cases hj : j = position
  · have hlt : position < (slots ++ List.replicate (position + 1 - slots.length) none).length := by
      rw [List.length_append, List.length_replicate]
      omega
    rw [if_pos hj, hj, place, List.getElem?_set_self hlt, Option.join_some]
  · rw [if_neg hj, place, List.getElem?_set_ne (Ne.symm hj), List.getElem?_append]
    split
    · rfl
    next hlt =>
      rw [List.getElem?_eq_none (Nat.le_of_not_lt hlt), List.getElem?_replicate]
      split <;> rfl

def placeAll (slots : List (Option α)) (placed : List (Nat × α)) : List (Option α) :=
  placed.foldl (fun slots (position, action) => place slots position action) slots

/-- The slots before anything is placed. -/
def listed (r : Rule α) : List (Option α) := r.slots.getD (r.right.map fun _ => none)

def allSlots (r : Rule α) : List (Option α) := placeAll r.listed r.placed

/-- Every position is one that a list of slots reaches, or has room to reach. -/
def HasRoom (room : Nat) (r : Rule α) : Prop :=
  ∀ x ∈ r.placed, x.1 < max room r.listed.length

theorem placeAll_concat (slots : List (Option α)) (placed : List (Nat × α)) (x : Nat × α) :
    placeAll slots (placed ++ [x]) = place (placeAll slots placed) x.1 x.2 :=
  List.foldl_concat ..

theorem length_placeAll_le_iff {slots : List (Option α)} {placed : List (Nat × α)} {n : Nat} :
    (placeAll slots placed).length ≤ n ↔ slots.length ≤ n ∧ ∀ x ∈ placed, x.1 < n := by
  induction placed using List.reverseRecOn with
  | nil => simp [placeAll]
  | append_singleton placed x ih =>
    rw [placeAll_concat, length_place, Nat.max_le, ih, List.forall_mem_append,
      List.forall_mem_singleton, and_assoc, Nat.succ_le_iff]

/-- A list that has grown within its room reaches no further than the room or its first length. -/
theorem max_length_placeAll {room : Nat} {slots : List (Option α)} {placed : List (Nat × α)}
    (h : ∀ x ∈ placed, x.1 < max room slots.length) :
    max room (placeAll slots placed).length = max room slots.length := by
  have hle := length_placeAll_le_iff.mpr ⟨Nat.le_max_right room slots.length, h⟩
  have hge : slots.length ≤ (placeAll slots placed).length :=
    (length_placeAll_le_iff.mp (Nat.le_refl _)).1
  omega

theorem foldlM_place?_eq_some_iff {room : Nat} {slots slots' : List (Option α)}
    {placed : List (Nat × α)} :
    placed.foldlM (fun slots (position, action) => place? room slots position action) slots =
        some slots' ↔
      (∀ x ∈ placed, x.1 < max room slots.length) ∧ slots' = placeAll slots placed := by
  induction placed using List.reverseRecOn generalizing slots' with
  | nil => simp [placeAll, eq_comm]
  | append_singleton placed x ih =>
    simp only [List.foldlM_append, Option.bind_eq_bind, Option.bind_eq_some_iff, ih,
      List.foldlM_cons, List.foldlM_nil, bind_pure, placeAll_concat, List.forall_mem_append,
      List.forall_mem_singleton, and_assoc, exists_and_left, exists_eq_left]
    refine and_congr_right fun hplaced => ?_
    rw [place?_eq, max_length_placeAll hplaced]
    by_cases hx : x.1 < max room slots.length <;> simp [hx, eq_comm]

theorem allSlots?_eq_some_iff {room : Nat} {r : Rule α} {slots : List (Option α)} :
    r.allSlots? room = some slots ↔ r.HasRoom room ∧ slots = r.allSlots := by
  rw [allSlots?, ← listed, foldlM_place?_eq_some_iff, HasRoom, allSlots]

end Rule

/-- The last of what `f` reads off the members. -/
def lastOf {β γ : Type} (f : β → Option γ) (bs : List β) : Option γ := (bs.filterMap f).getLast?

theorem lastOf_concat {β γ : Type} (f : β → Option γ) (bs : List β) (b : β) :
    lastOf f (bs ++ [b]) = (f b).or (lastOf f bs) := by
  rw [lastOf, List.filterMap_append]
  cases hb : f b <;> simp [lastOf, hb]

theorem lastOf_filterMap {β γ δ : Type} (f : γ → Option δ) (f' : β → Option γ) (bs : List β) :
    lastOf f (bs.filterMap f') = lastOf (fun b => (f' b).bind f) bs := by
  rw [lastOf, List.filterMap_filterMap, lastOf]

/-- What was placed at a position last stands there. -/
theorem Rule.join_getElem?_placeAll (slots : List (Option α)) (placed : List (Nat × α)) (j : Nat) :
    (placeAll slots placed)[j]?.join =
      (lastOf (fun x => if x.1 = j then some x.2 else none) placed).or slots[j]?.join := by
  induction placed using List.reverseRecOn with
  | nil => rfl
  | append_singleton placed x ih =>
    rw [placeAll_concat, join_getElem?_place, lastOf_concat, ih]
    by_cases hj : x.1 = j
    · simp [hj]
    · simp [hj, Ne.symm hj]

/-! ## Resolution -/

namespace Declaration

variable {room : Nat} {d : Declaration α} {g : Grammar α}

theorem sign?_eq_none_iff {name : String} :
    d.sign? name = none ↔ name ∉ d.terminals ∧ name ∉ d.nonTerminals := by
  rw [sign?, ← Grammar.lastIndexOf_eq_none_iff, ← Grammar.lastIndexOf_eq_none_iff]
  cases Grammar.lastIndexOf name d.terminals <;> simp

theorem exists_resolveSigns_iff (left : String) {names : List String} :
    (∃ right, d.resolveSigns left names = .ok right) ↔
      ∀ name ∈ names, name ∈ d.terminals ∨ name ∈ d.nonTerminals := by
  induction names with
  | nil => simp [resolveSigns]
  | cons name names ih =>
    rw [List.forall_mem_cons, ← ih, resolveSigns]
    cases hs : d.sign? name with
    | none =>
      obtain ⟨ht, hn⟩ := sign?_eq_none_iff.mp hs
      simp [ht, hn]
    | some s =>
      have hdeclared : name ∈ d.terminals ∨ name ∈ d.nonTerminals := by
        by_contra! hnone
        rw [sign?_eq_none_iff.mpr hnone] at hs
        cases hs
      cases d.resolveSigns left names <;>
        simp [hdeclared, bind, Except.bind, pure, Except.pure]

theorem exists_resolveRule_iff {r : Rule α} :
    (∃ p, (d.resolveRule room r).run = some (.ok p)) ↔ (r.left ∈ d.nonTerminals ∧
      ∀ name ∈ r.right, name ∈ d.terminals ∨ name ∈ d.nonTerminals) ∧ r.HasRoom room := by
  have hslots : r.HasRoom room ↔ ∃ slots, r.allSlots? room = some slots := by
    simp [Rule.allSlots?_eq_some_iff]
  rw [← exists_resolveSigns_iff r.left, ← Grammar.exists_lastIndexOf_iff, hslots, resolveRule]
  cases Grammar.lastIndexOf r.left d.nonTerminals with
  | none => simp
  | some left =>
    simp only [Building.run_bind_eq, Building.run_liftM_eq]
    constructor
    · rintro ⟨p, right, hright, slots, hslots, -⟩
      exact ⟨⟨⟨left, rfl⟩, right, Option.some.inj hright⟩, slots, hslots⟩
    · rintro ⟨⟨-, right, hright⟩, slots, hslots⟩
      exact ⟨_, right, congrArg some hright, slots, hslots, rfl⟩

theorem exists_resolveRules_iff {rs : List (Rule α)} :
    (∃ ps, (d.resolveRules room rs).run = some (.ok ps)) ↔ ∀ r ∈ rs, (r.left ∈ d.nonTerminals ∧
      ∀ name ∈ r.right, name ∈ d.terminals ∨ name ∈ d.nonTerminals) ∧ r.HasRoom room := by
  induction rs with
  | nil => simp [resolveRules]
  | cons r rs ih =>
    rw [List.forall_mem_cons, ← ih, ← exists_resolveRule_iff, resolveRules]
    simp only [Building.run_bind_eq]
    constructor
    · rintro ⟨ps, p, hp, rest, hrest, -⟩
      exact ⟨⟨p, hp⟩, rest, hrest⟩
    · rintro ⟨⟨p, hp⟩, rest, hrest⟩
      exact ⟨p :: rest, p, hp, rest, hrest, rfl⟩

/-- A declaration has a grammar when its names are declared once, those it uses are declared, and no
list of slots outgrows its room. -/
theorem exists_build_iff : (∃ g, (d.build room).run = some (.ok g)) ↔
    (d.terminals ++ d.nonTerminals).Nodup ∧ (∃ name ∈ d.start, name ∈ d.nonTerminals) ∧
      ∀ r ∈ d.rules, (r.left ∈ d.nonTerminals ∧
        ∀ name ∈ r.right, name ∈ d.terminals ∨ name ∈ d.nonTerminals) ∧ r.HasRoom room := by
  have hnodup : firstRepeated [] (d.terminals ++ d.nonTerminals) = none ↔
      (d.terminals ++ d.nonTerminals).Nodup := by
    simp [firstRepeated_eq_none_iff]
  rw [build, ← hnodup, ← exists_resolveRules_iff]
  cases firstRepeated [] (d.terminals ++ d.nonTerminals) with
  | some name => simp
  | none =>
    cases d.start with
    | none => simp
    | some name =>
      have hstart : (∃ i, Grammar.lastIndexOf name d.nonTerminals = some i) ↔
          name ∈ d.nonTerminals := Grammar.exists_lastIndexOf_iff
      simp only [Option.mem_some_iff, exists_eq_left', ← hstart]
      cases Grammar.lastIndexOf name d.nonTerminals with
      | none => simp
      | some start =>
        simp only [Building.run_bind_eq]
        constructor
        · rintro ⟨g, ps, hps, -⟩
          exact ⟨trivial, ⟨start, rfl⟩, ps, hps⟩
        · rintro ⟨-, -, ps, hps⟩
          exact ⟨_, ps, hps, rfl⟩

/-- The production spells the rule by signs of the grammar. -/
structure Makes (g : Grammar α) (p : Production α) (r : Rule α) : Prop where
  left_lt : p.left < g.nonTerminals.length
  right_fits : g.Fits p.right
  left_name : g.nameOf (.nonTerminal p.left) = r.left
  right_names : p.right.map g.nameOf = r.right
  opening_eq : p.opening = r.opening
  closing_eq : p.closing = r.closing
  slots_eq : p.slots = r.allSlots

section Alphabets

variable (ht : g.terminals = d.terminals) (hn : g.nonTerminals = d.nonTerminals)

include ht hn

theorem fits_of_sign? {name : String} {s : Sign} (h : d.sign? name = some s) :
    g.fits s = true ∧ g.nameOf s = name := by
  rw [sign?] at h
  cases hterminal : Grammar.lastIndexOf name d.terminals with
  | some i =>
    rw [hterminal] at h
    obtain ⟨hlt, hname⟩ := Grammar.lastIndexOf_lt hterminal
    cases h
    exact ⟨Grammar.fits_terminal.mpr (ht ▸ hlt), by simp [Grammar.nameOf, ht, hname]⟩
  | none =>
    rw [hterminal] at h
    obtain ⟨n, hnonTerminal, rfl⟩ := Option.map_eq_some_iff.mp h
    obtain ⟨hlt, hname⟩ := Grammar.lastIndexOf_lt hnonTerminal
    exact ⟨Grammar.fits_nonTerminal.mpr (hn ▸ hlt), by simp [Grammar.nameOf, hn, hname]⟩

theorem fits_of_resolveSigns {left : String} {names : List String} {right : List Sign}
    (h : d.resolveSigns left names = .ok right) : g.Fits right ∧ right.map g.nameOf = names := by
  induction names generalizing right with
  | nil =>
    cases h
    exact ⟨by simp [Grammar.Fits], rfl⟩
  | cons name names ih =>
    rw [resolveSigns] at h
    cases hs : d.sign? name with
    | none => simp [hs] at h
    | some s =>
      simp only [hs, bind_eq_ok] at h
      obtain ⟨rest, hrest, he⟩ := h
      cases he
      obtain ⟨hfits, hname⟩ := fits_of_sign? ht hn hs
      obtain ⟨hfits', hnames⟩ := ih hrest
      exact ⟨Grammar.fits_cons.mpr ⟨hfits, hfits'⟩, by rw [List.map_cons, hname, hnames]⟩

theorem makes_of_resolveRule {r : Rule α} {p : Production α}
    (h : (d.resolveRule room r).run = some (.ok p)) : Makes g p r := by
  rw [resolveRule] at h
  cases hleft : Grammar.lastIndexOf r.left d.nonTerminals with
  | none => simp [hleft] at h
  | some left =>
    simp only [hleft, Building.run_bind_eq, Building.run_liftM_eq,
      Rule.allSlots?_eq_some_iff] at h
    obtain ⟨right, hright, slots, ⟨-, hslots⟩, he⟩ := h
    cases he
    obtain ⟨hlt, hname⟩ := Grammar.lastIndexOf_lt hleft
    obtain ⟨hfits, hnames⟩ := fits_of_resolveSigns ht hn (Option.some.inj hright)
    exact ⟨hn ▸ hlt, hfits, by simp [Grammar.nameOf, hn, hname], hnames, rfl, rfl, hslots⟩

theorem makes_of_resolveRules {rs : List (Rule α)} {ps : List (Production α)}
    (h : (d.resolveRules room rs).run = some (.ok ps)) : List.Forall₂ (Makes g) ps rs := by
  induction rs generalizing ps with
  | nil =>
    cases h
    exact .nil
  | cons r rs ih =>
    simp only [resolveRules, Building.run_bind_eq] at h
    obtain ⟨p, hp, rest, hrest, he⟩ := h
    cases he
    exact .cons (makes_of_resolveRule ht hn hp) (ih hrest)

end Alphabets

structure Made (d : Declaration α) (g : Grammar α) : Prop where
  terminals_eq : g.terminals = d.terminals
  nonTerminals_eq : g.nonTerminals = d.nonTerminals
  start_lt : g.start < g.nonTerminals.length
  start_name : d.start = some (g.nameOf (.nonTerminal g.start))
  makes : List.Forall₂ (Makes g) g.productions d.rules

theorem made_of_build (h : (d.build room).run = some (.ok g)) : Made d g := by
  rw [build] at h
  cases hrepeated : firstRepeated [] (d.terminals ++ d.nonTerminals) with
  | some name => simp [hrepeated] at h
  | none =>
    cases hname : d.start with
    | none => simp [hrepeated, hname] at h
    | some name =>
      cases hstart : Grammar.lastIndexOf name d.nonTerminals with
      | none => simp [hrepeated, hname, hstart] at h
      | some start =>
        simp only [hrepeated, hname, hstart, Building.run_bind_eq] at h
        obtain ⟨ps, hrules, he⟩ := h
        cases he
        obtain ⟨hlt, hstartName⟩ := Grammar.lastIndexOf_lt hstart
        exact ⟨rfl, rfl, hlt, by simp [Grammar.nameOf, hname, hstartName],
          makes_of_resolveRules rfl rfl hrules⟩

theorem Made.valid (h : Made d g) : g.Valid := by
  have hfit : ∀ p ∈ g.productions, p.left < g.nonTerminals.length ∧ g.Fits p.right :=
    (List.forall₂_and_left _ _ |>.mp
      (h.makes.imp fun _ _ hr => ⟨⟨hr.left_lt, hr.right_fits⟩, hr⟩)).1
  exact ⟨h.start_lt, fun p hp => (hfit p hp).1, fun p hp => (hfit p hp).2⟩

end Declaration

end PredictiveParsing
