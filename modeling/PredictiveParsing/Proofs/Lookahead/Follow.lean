import PredictiveParsing.Lookahead.Follow
import PredictiveParsing.Proofs.Lookahead.First

/-!
# Follow sets are exact

`Follows n s` says in terms of derivations what the sign `s` means in the follow set of the
non-terminal `n`: a terminal right after `n` in a form derived from some non-terminal, or the end
mark, when `n` ends a form derived from a start symbol that has a production. The main result,
`follow_sets_exact`, says for a grammar whose indices fit that the passes come to an end and that
the follow sets have exactly these members. Completeness is an induction on an unfolding
(`Closed.reaches`) under an assumption about what stands around it (`Hangs`).
-/

namespace PredictiveParsing

variable {α : Type} {g : Grammar α}

def Grammar.Follows (g : Grammar α) (n : Nat) : Sign → Prop
  | .terminal t => ∃ m a b, g.Derives [.nonTerminal m] (a ++ .nonTerminal n :: .terminal t :: b)
  | .pound => (∃ p ∈ g.productions, p.left = g.start) ∧
      ∃ a, g.Derives [.nonTerminal g.start] (a ++ [.nonTerminal n])
  | _ => False

/-- Only a non-terminal of the grammar derives a form in which something follows `n`. -/
theorem Grammar.follows_terminal_iff (hg : g.Valid) {n t : Nat} :
    g.Follows n (.terminal t) ↔ ∃ m < g.nonTerminals.length, ∃ a b,
      g.Derives [.nonTerminal m] (a ++ .nonTerminal n :: .terminal t :: b) := by
  constructor
  · rintro ⟨m, a, b, h⟩
    refine ⟨m, ?_, a, b, h⟩
    rcases derives_cons_iff.mp h with ⟨v, hv, hnil⟩ | ⟨p, hp, hm, -⟩
    · rw [derives_nil_iff.mp hnil] at hv
      have hlength := congrArg List.length hv
      simp only [List.length_append, List.length_cons, List.length_nil] at hlength
      omega
    · cases hm
      exact hg.left_lt p hp
  · rintro ⟨m, -, a, b, h⟩
    exact ⟨m, a, b, h⟩

namespace Follow

/-! ## Passes -/

def inherited (left n : Nat) (sets : Family) : Family :=
  if n = left then sets else sets.joined n (sets.entry left)

def visitedSign (firsts : Family) (left n : Nat) (rest : List Sign) (sets : Family) : Family :=
  let sets := sets.joined n (firstSet firsts rest).withoutEmpty
  if .empty ∈ firstSet firsts rest then inherited left n sets else sets

def visitedSigns (firsts : Family) (left : Nat) : List Sign → Family → Family
  | [], sets => sets
  | .nonTerminal n :: rest, sets =>
    visitedSigns firsts left rest (visitedSign firsts left n rest sets)
  | _ :: rest, sets => visitedSigns firsts left rest sets

def opened (g : Grammar α) (sets : Family) (p : Production α) : Family :=
  if p.left = g.start then sets.joined p.left (.singleton .pound) else sets

def visited (g : Grammar α) (firsts : Family) (sets : Family) (p : Production α) : Family :=
  visitedSigns firsts p.left p.right (opened g sets p)

def passed (g : Grammar α) (firsts : Family) (sets : Family) : Family :=
  g.productions.foldl (visited g firsts) sets

@[simp] theorem length_inherited (left n : Nat) (sets : Family) :
    (inherited left n sets).length = sets.length := by
  rw [inherited]
  split <;> simp

@[simp] theorem length_visitedSign (firsts : Family) (left n : Nat) (rest : List Sign)
    (sets : Family) : (visitedSign firsts left n rest sets).length = sets.length := by
  rw [visitedSign]
  split <;> simp

theorem inherit_eq {sets : Family} {left n : Nat} (hl : left < sets.length)
    (hn : n < sets.length) : inherit left n sets = .ok (inherited left n sets) := by
  rw [inherit, inherited]
  split
  · rfl
  · simp [Family.at?_eq hl, Family.join_eq hn, bind, Except.bind]

theorem visitSign_eq {firsts sets : Family} (hf : firsts.length = g.nonTerminals.length)
    {left n : Nat} (hl : left < sets.length) (hn : n < sets.length) {rest : List Sign}
    (hr : g.Fits rest) :
    visitSign firsts left n rest sets = .ok (visitedSign firsts left n rest sets) := by
  rw [visitSign, visitedSign]
  split
  next h =>
    subst h
    have hnone : sets.joined n (firstSet firsts []).withoutEmpty = sets :=
      Family.joined_of_subset hn fun s hs => by simp_all [firstSet]
    have hempty : .empty ∈ firstSet firsts [] := SignSet.mem_singleton.mpr rfl
    simp only [hnone, hempty, if_true, inherit_eq hl hn]
  next h =>
    simp only [firstOf_eq hf hr, Family.join_eq hn, bind, Except.bind, pure, Except.pure]
    split
    · exact inherit_eq (by simpa using hl) (by simpa using hn)
    · rfl

theorem visitSigns_eq {firsts : Family} (hf : firsts.length = g.nonTerminals.length) {left : Nat}
    {u : List Sign} (hu : g.Fits u) {sets : Family} (hs : sets.length = g.nonTerminals.length)
    (hl : left < sets.length) :
    visitSigns firsts left u sets = .ok (visitedSigns firsts left u sets) := by
  induction u generalizing sets with
  | nil => rfl
  | cons s u ih =>
    obtain ⟨hfit, hu'⟩ := Grammar.fits_cons.mp hu
    cases s with
    | terminal t => exact ih hu' hs hl
    | nonTerminal n =>
      have hn : n < sets.length := hs ▸ Grammar.fits_nonTerminal.mp hfit
      simp only [visitSigns, visitedSigns, visitSign_eq hf hl hn hu', bind, Except.bind]
      exact ih hu' (by simpa using hs) (by simpa using hl)
    | empty => cases hfit
    | pound => cases hfit

theorem visit_eq (hg : g.Valid) {firsts sets : Family} (hf : firsts.length = g.nonTerminals.length)
    (hs : sets.length = g.nonTerminals.length) {p : Production α} (hp : p ∈ g.productions) :
    visit g firsts sets p = .ok (visited g firsts sets p) := by
  have hl : p.left < sets.length := hs ▸ hg.left_lt p hp
  rw [visit, visited, opened]
  split
  · simp only [Family.join_eq hl, bind, Except.bind]
    exact visitSigns_eq hf (hg.right_fits p hp) (by simpa using hs) (by simpa using hl)
  · simp only [bind, Except.bind, pure, Except.pure]
    exact visitSigns_eq hf (hg.right_fits p hp) hs hl

/-! ## Growth -/

theorem within_inherited (left n : Nat) (sets : Family) : sets.Within (inherited left n sets) := by
  rw [inherited]
  split
  · exact .refl sets
  · exact Family.within_joined ..

theorem within_visitedSign (firsts : Family) (left n : Nat) (rest : List Sign) (sets : Family) :
    sets.Within (visitedSign firsts left n rest sets) := by
  rw [visitedSign]
  split
  · exact (Family.within_joined ..).trans (within_inherited ..)
  · exact Family.within_joined ..

theorem within_visitedSigns (firsts : Family) (left : Nat) (u : List Sign) (sets : Family) :
    sets.Within (visitedSigns firsts left u sets) := by
  fun_induction visitedSigns firsts left u sets with
  | case1 => exact .refl _
  | case2 sets n rest ih => exact (within_visitedSign ..).trans ih
  | case3 _ _ _ _ ih => exact ih

theorem within_opened (g : Grammar α) (sets : Family) (p : Production α) :
    sets.Within (opened g sets p) := by
  rw [opened]
  split
  · exact Family.within_joined ..
  · exact .refl sets

theorem within_visited (g : Grammar α) (firsts sets : Family) (p : Production α) :
    sets.Within (visited g firsts sets p) :=
  (within_opened g sets p).trans (within_visitedSigns ..)

theorem pass_eq (hg : g.Valid) {firsts sets : Family} (hf : firsts.length = g.nonTerminals.length)
    (hs : sets.length = g.nonTerminals.length) :
    pass g firsts sets = .ok (passed g firsts sets) :=
  Family.foldlM_eq_foldl (fun _ _ hp hs => visit_eq hg hf hs hp)
    (fun sets p => (within_visited g firsts sets p).length_eq.symm) hs

/-! ## Soundness -/

structure Sound (g : Grammar α) (sets : Family) : Prop where
  length_eq : sets.length = g.nonTerminals.length
  follows : ∀ n, ∀ s ∈ sets.entry n, g.Follows n s

theorem Sound.joined {sets : Family} (h : Sound g sets) {n : Nat} (hn : n < sets.length)
    {A : SignSet} (hA : ∀ s ∈ A, g.Follows n s) : Sound g (sets.joined n A) := by
  refine ⟨by simpa using h.length_eq, fun m s hs => ?_⟩
  rcases (Family.mem_entry_joined hn).mp hs with hold | ⟨rfl, hnew⟩
  · exact h.follows m s hold
  · exact hA s hnew

/-- What follows the left side follows a non-terminal whose rest can vanish. -/
theorem follows_of_left {p : Production α} (hp : p ∈ g.productions) {before rest : List Sign}
    {n : Nat} (hr : p.right = before ++ .nonTerminal n :: rest) (hvanish : g.Derives rest [])
    {s : Sign} (h : g.Follows p.left s) : g.Follows n s := by
  have hleft : g.Derives [.nonTerminal p.left] (before ++ [.nonTerminal n]) := by
    have hrest := (hvanish.append_left (before ++ [.nonTerminal n]))
    have hright := Grammar.Derives.of_production hp
    simp only [hr, List.append_assoc, List.append_nil, List.singleton_append] at hright hrest
    exact hright.trans hrest
  cases s with
  | terminal t =>
    obtain ⟨m, a, b, hm⟩ := h
    refine ⟨m, a ++ before, b, hm.trans ?_⟩
    have := ((hleft.append_right (.terminal t :: b)).append_left a)
    simpa using this
  | pound =>
    obtain ⟨hstart, a, hm⟩ := h
    refine ⟨hstart, a ++ before, hm.trans ?_⟩
    simpa using hleft.append_left a
  | nonTerminal m => exact h
  | empty => exact h

/-- What the rest can begin with follows the non-terminal before it. -/
theorem follows_of_begins {p : Production α} (hp : p ∈ g.productions) {before rest : List Sign}
    {n : Nat} (hr : p.right = before ++ .nonTerminal n :: rest) {s : Sign}
    (h : g.Begins rest s) (hne : s ≠ .empty) : g.Follows n s := by
  cases s with
  | terminal t =>
    obtain ⟨v, hv⟩ := h
    refine ⟨p.left, before, v, (Grammar.Derives.of_production hp).trans ?_⟩
    rw [hr]
    exact (hv.append_left [.nonTerminal n]).append_left before
  | empty => exact absurd rfl hne
  | nonTerminal m => exact h.elim
  | pound => exact h.elim

theorem Sound.inherited {sets : Family} (h : Sound g sets) {left n : Nat} (hn : n < sets.length)
    (hleft : ∀ s, g.Follows left s → g.Follows n s) : Sound g (inherited left n sets) := by
  rw [Follow.inherited]
  split
  · exact h
  · exact h.joined hn fun s hs => hleft s (h.follows left s hs)

theorem Sound.visitedSign {firsts sets : Family} (hf : First.Exact g firsts) (h : Sound g sets)
    {p : Production α} (hp : p ∈ g.productions) {before rest : List Sign} {n : Nat}
    (hr : p.right = before ++ .nonTerminal n :: rest) (hn : n < sets.length) :
    Sound g (visitedSign firsts p.left n rest sets) := by
  have hjoined : Sound g (sets.joined n (firstSet firsts rest).withoutEmpty) := by
    refine h.joined hn fun s hs => ?_
    obtain ⟨hs, hne⟩ := SignSet.mem_withoutEmpty.mp hs
    exact follows_of_begins hp hr ((hf.mem_firstSet rest s).mp hs) hne
  rw [Follow.visitedSign]
  split
  next he =>
    have hvanish : g.Derives rest [] := (hf.mem_firstSet rest .empty).mp he
    exact hjoined.inherited (by simpa using hn) fun s => follows_of_left hp hr hvanish
  next => exact hjoined

theorem Sound.visitedSigns {firsts : Family} (hf : First.Exact g firsts) (hg : g.Valid)
    {p : Production α} (hp : p ∈ g.productions) {before u : List Sign}
    (hr : p.right = before ++ u) {sets : Family} (h : Sound g sets) :
    Sound g (visitedSigns firsts p.left u sets) := by
  induction u generalizing before sets with
  | nil => exact h
  | cons s u ih =>
    have hr' : p.right = (before ++ [s]) ++ u := by simpa using hr
    cases s with
    | nonTerminal n =>
      have hfit := hg.right_fits p hp (.nonTerminal n) (by simp [hr])
      have hn : n < sets.length := h.length_eq ▸ Grammar.fits_nonTerminal.mp hfit
      exact ih hr' (h.visitedSign hf hp hr hn)
    | terminal t => exact ih hr' h
    | empty => exact ih hr' h
    | pound => exact ih hr' h

theorem Sound.visited {firsts sets : Family} (hf : First.Exact g firsts) (hg : g.Valid)
    (h : Sound g sets) {p : Production α} (hp : p ∈ g.productions) :
    Sound g (visited g firsts sets p) := by
  have hr : p.right = [] ++ p.right := rfl
  refine Sound.visitedSigns hf hg hp hr ?_
  rw [opened]
  split
  next hs =>
    refine h.joined (h.length_eq ▸ hg.left_lt p hp) fun s hm => ?_
    obtain rfl := SignSet.mem_singleton.mp hm
    exact ⟨⟨p, hp, hs⟩, [], hs ▸ .refl _⟩
  next => exact h

theorem Sound.passed {firsts sets : Family} (hf : First.Exact g firsts) (hg : g.Valid)
    (h : Sound g sets) : Sound g (passed g firsts sets) :=
  List.foldlRecOn g.productions _ h fun _ h _ hp => h.visited hf hg hp

theorem sound_blank (g : Grammar α) : Sound g (Family.blank g.nonTerminals.length) :=
  ⟨Family.length_blank _, fun n s hs => absurd hs (by simp)⟩

/-- The terminals and the end mark. -/
def signs (g : Grammar α) : List Sign := .pound :: (List.range g.terminals.length).map .terminal

theorem Sound.mem_signs (hg : g.Valid) {sets : Family} (h : Sound g sets) (n : Nat) :
    ∀ s ∈ sets.entry n, s ∈ signs g := by
  intro s hs
  have hb := h.follows n s hs
  cases s with
  | terminal t =>
    obtain ⟨m, a, b, hm⟩ := hb
    have ht := (hg.mem_or_fits_of_derives hm (.terminal t) (by simp)).resolve_left (by simp)
    simpa [signs] using Grammar.fits_terminal.mp ht
  | pound => exact List.mem_cons_self
  | nonTerminal m => exact hb.elim
  | empty => exact hb.elim

theorem Sound.size_le (hg : g.Valid) {sets : Family} (h : Sound g sets) :
    sets.size ≤ g.nonTerminals.length * (g.terminals.length + 1) := by
  simpa [h.length_eq, signs] using Family.size_le (h.mem_signs hg)

/-! ## Completeness -/

/-- What the fixed point gives for the start symbol and for each non-terminal of a right side. -/
structure Closed (g : Grammar α) (sets : Family) : Prop where
  start : ∀ p ∈ g.productions, p.left = g.start → .pound ∈ sets.entry g.start
  begins : ∀ p ∈ g.productions, ∀ before n rest, p.right = before ++ .nonTerminal n :: rest →
    ∀ t, g.Leads rest (.terminal t) → .terminal t ∈ sets.entry n
  vanishes : ∀ p ∈ g.productions, ∀ before n rest, p.right = before ++ .nonTerminal n :: rest →
    g.Derives rest [] → sets.entry p.left ⊆ sets.entry n

theorem visitedSign_of_fixed {firsts sets : Family} {left : Nat} {u : List Sign}
    (h : visitedSigns firsts left u sets = sets) {before rest : List Sign} {n : Nat}
    (hu : u = before ++ .nonTerminal n :: rest) :
    visitedSign firsts left n rest sets = sets := by
  induction u generalizing before with
  | nil => simp at hu
  | cons s u ih =>
    have hhead : ∀ m, s = .nonTerminal m → visitedSign firsts left m u sets = sets := by
      rintro m rfl
      refine Family.Within.antisymm ?_ (within_visitedSign ..)
      have hw := within_visitedSigns firsts left u (visitedSign firsts left m u sets)
      rwa [show visitedSigns firsts left u (visitedSign firsts left m u sets) = sets from h] at hw
    cases before with
    | nil =>
      obtain ⟨rfl, rfl⟩ := List.cons.inj hu
      exact hhead n rfl
    | cons s' before =>
      obtain ⟨rfl, rfl⟩ := List.cons.inj hu
      cases s with
      | nonTerminal m =>
        rw [visitedSigns, hhead m rfl] at h
        exact ih h rfl
      | terminal t => exact ih h rfl
      | empty => exact ih h rfl
      | pound => exact ih h rfl

theorem joined_of_visitedSign {firsts sets : Family} {left n : Nat} {rest : List Sign}
    (h : visitedSign firsts left n rest sets = sets) :
    sets.joined n (firstSet firsts rest).withoutEmpty = sets := by
  refine Family.Within.antisymm ?_ (Family.within_joined ..)
  rw [visitedSign] at h
  split at h
  · have hw := within_inherited left n (sets.joined n (firstSet firsts rest).withoutEmpty)
    rwa [h] at hw
  · rw [h]
    exact .refl sets

theorem inherited_of_visitedSign {firsts sets : Family} {left n : Nat} {rest : List Sign}
    (h : visitedSign firsts left n rest sets = sets) (he : .empty ∈ firstSet firsts rest) :
    inherited left n sets = sets := by
  have hj := joined_of_visitedSign h
  simpa only [visitedSign, if_pos he, hj] using h

theorem closed_of_fixed (hg : g.Valid) {firsts sets : Family} (hf : First.Exact g firsts)
    (hl : sets.length = g.nonTerminals.length) (hp : passed g firsts sets = sets) :
    Closed g sets := by
  have hvisit : ∀ p ∈ g.productions, visited g firsts sets p = sets :=
    Family.foldl_fixed (within_visited g firsts) hp
  have hopen : ∀ p ∈ g.productions, opened g sets p = sets := by
    intro p hm
    refine Family.Within.antisymm ?_ (within_opened g sets p)
    have hw := within_visitedSigns firsts p.left p.right (opened g sets p)
    rwa [show visitedSigns firsts p.left p.right (opened g sets p) = sets from hvisit p hm] at hw
  have hsign : ∀ p ∈ g.productions, ∀ before n rest,
      p.right = before ++ .nonTerminal n :: rest →
        n < sets.length ∧ visitedSign firsts p.left n rest sets = sets := by
    intro p hm before n rest hr
    have hfit := hg.right_fits p hm (.nonTerminal n) (by simp [hr])
    have hv := hvisit p hm
    rw [visited, hopen p hm] at hv
    exact ⟨hl ▸ Grammar.fits_nonTerminal.mp hfit, visitedSign_of_fixed hv hr⟩
  refine ⟨fun p hm hs => ?_, fun p hm before n rest hr t ht => ?_,
    fun p hm before n rest hr hv s hs => ?_⟩
  · have ho := hopen p hm
    rw [opened, if_pos hs, hs] at ho
    rw [← ho]
    exact (Family.mem_entry_joined (hl ▸ hg.start_lt)).mpr
      (.inr ⟨rfl, SignSet.mem_singleton.mpr rfl⟩)
  · obtain ⟨hn, hv⟩ := hsign p hm before n rest hr
    rw [← joined_of_visitedSign hv]
    have hb : .terminal t ∈ firstSet firsts rest := (hf.mem_firstSet rest (.terminal t)).mpr ht
    exact (Family.mem_entry_joined hn).mpr
      (.inr ⟨rfl, SignSet.mem_withoutEmpty.mpr ⟨hb, Sign.noConfusion⟩⟩)
  · obtain ⟨hn, hvs⟩ := hsign p hm before n rest hr
    have hi := inherited_of_visitedSign hvs ((hf.mem_firstSet rest .empty).mpr hv)
    rw [inherited] at hi
    split at hi
    next he => exact he ▸ hs
    next =>
      rw [← hi]
      exact (Family.mem_entry_joined hn).mpr (.inr ⟨rfl, hs⟩)

/-- Each non-terminal of `u` has what the rest of `u` can begin with, and what is in `outer` when
the rest can vanish. -/
structure Hangs (g : Grammar α) (sets : Family) (outer : Sign → Prop) (u : List Sign) : Prop where
  begins : ∀ before n rest, u = before ++ .nonTerminal n :: rest →
    ∀ t, g.Leads rest (.terminal t) → .terminal t ∈ sets.entry n
  vanishes : ∀ before n rest, u = before ++ .nonTerminal n :: rest → g.Derives rest [] →
    ∀ s, outer s → s ∈ sets.entry n

theorem Hangs.tail {sets : Family} {outer : Sign → Prop} {s : Sign} {u : List Sign}
    (h : Hangs g sets outer (s :: u)) : Hangs g sets outer u :=
  ⟨fun before n rest hu => h.begins (s :: before) n rest (by simp [hu]),
    fun before n rest hu => h.vanishes (s :: before) n rest (by simp [hu])⟩

theorem Closed.hangs {sets : Family} (h : Closed g sets) {p : Production α}
    (hp : p ∈ g.productions) : Hangs g sets (· ∈ sets.entry p.left) p.right :=
  ⟨h.begins p hp, h.vanishes p hp⟩

/-- What hangs well still does so after an unfolding. -/
theorem Closed.reaches {sets : Family} (h : Closed g sets) {u v : List Sign}
    (hu : g.Unfolds u v) {outer : Sign → Prop} (ho : Hangs g sets outer u) :
    Hangs g sets outer v := by
  induction hu generalizing outer with
  | nil => exact ho
  | @keep s u v hv ih =>
    have hd : g.Derives u v := Grammar.derives_iff_unfolds.mpr hv
    have hrest := ih ho.tail
    refine ⟨fun before n rest he t ht => ?_, fun before n rest he hvan s' hs => ?_⟩
    · cases before with
      | nil =>
        obtain ⟨rfl, rfl⟩ := List.cons.inj he
        exact ho.begins [] n u rfl t (ht.of_derives hd)
      | cons _ before => exact hrest.begins before n rest (List.cons.inj he).2 t ht
    · cases before with
      | nil =>
        obtain ⟨rfl, rfl⟩ := List.cons.inj he
        exact ho.vanishes [] n u rfl (hd.trans hvan) s' hs
      | cons _ before => exact hrest.vanishes before n rest (List.cons.inj he).2 hvan s' hs
  | @expand p hp x u v hx hv ihb ihr =>
    have hd : g.Derives u v := Grammar.derives_iff_unfolds.mpr hv
    have hbelow := ihb (h.hangs hp)
    have hrest := ihr ho.tail
    -- The non-terminal stands in what `p` became, before the rest `v`, or in `v` itself.
    refine ⟨fun before n rest he t ht => ?_, fun before n rest he hvan s hs => ?_⟩
    · rcases append_eq_middle he with ⟨rest', hx', rfl⟩ | ⟨before', -, hv'⟩
      · rcases Grammar.leads_append.mp ht with ht | ⟨hvan, ht⟩
        · exact hbelow.begins before n rest' hx' t ht
        · exact hbelow.vanishes before n rest' hx' hvan _
            (ho.begins [] p.left u rfl t (ht.of_derives hd))
      · exact hrest.begins before' n rest hv' t ht
    · rcases append_eq_middle he with ⟨rest', hx', rfl⟩ | ⟨before', -, hv'⟩
      · obtain ⟨hvan, hvan'⟩ := Grammar.Derives.vanishes_append.mp hvan
        exact hbelow.vanishes before n rest' hx' hvan s
          (ho.vanishes [] p.left u rfl (hd.trans hvan') s hs)
      · exact hrest.vanishes before' n rest hv' hvan s hs

/-- A single non-terminal has nothing behind it, so it hangs below what follows it itself. -/
theorem hangs_singleton {sets : Family} {outer : Sign → Prop} {m : Nat}
    (hm : ∀ s, outer s → s ∈ sets.entry m) : Hangs g sets outer [.nonTerminal m] := by
  have hone : ∀ {before n rest}, [Sign.nonTerminal m] = before ++ .nonTerminal n :: rest →
      n = m ∧ rest = [] := by
    intro before n rest he
    rcases List.append_eq_singleton_iff.mp he.symm with ⟨-, h⟩ | ⟨-, h⟩
    · obtain ⟨hn, hrest⟩ := List.cons.inj h
      exact ⟨Sign.nonTerminal.inj hn, hrest⟩
    · cases h
  refine ⟨fun before n rest he t ht => ?_, fun before n rest he _ s hs => ?_⟩
  · obtain ⟨v, hv⟩ := ht
    rw [(hone he).2, Grammar.derives_nil_iff] at hv
    cases hv
  · rw [(hone he).1]
    exact hm s hs

theorem Closed.mem_of_follows {sets : Family} (h : Closed g sets) {n : Nat} {s : Sign}
    (hs : g.Follows n s) : s ∈ sets.entry n := by
  cases s with
  | terminal t =>
    obtain ⟨m, a, b, hd⟩ := hs
    have halone : Hangs g sets (fun _ => False) [.nonTerminal m] := hangs_singleton nofun
    exact (h.reaches (Grammar.derives_iff_unfolds.mp hd) halone).begins a n _ rfl t ⟨b, .refl _⟩
  | pound =>
    obtain ⟨⟨p, hp, hstart⟩, a, hd⟩ := hs
    have halone : Hangs g sets (· = .pound) [.nonTerminal g.start] := by
      refine hangs_singleton ?_
      rintro s rfl
      exact h.start p hp hstart
    have hhangs := h.reaches (Grammar.derives_iff_unfolds.mp hd) halone
    exact hhangs.vanishes a n [] rfl (.refl []) .pound rfl
  | nonTerminal m => exact hs.elim
  | empty => exact hs.elim

/-! ## The computation -/

structure Exact (g : Grammar α) (follows : Family) : Prop where
  length_eq : follows.length = g.nonTerminals.length
  mem_entry : ∀ n s, s ∈ follows.entry n ↔ g.Follows n s

theorem compute_exact (hg : g.Valid) {firsts : Family} (hf : First.Exact g firsts) :
    ∃ follows passes, compute g firsts = .ok (follows, passes) ∧
      Family.Settles (pass g firsts) (Family.blank g.nonTerminals.length) follows passes ∧
      Exact g follows := by
  obtain ⟨follows, passes, hok, hloop, hs, hp⟩ :=
    Family.settle_spec (fun _ h => pass_eq hg hf.length_eq h.length_eq)
      (fun _ h => h.passed hf hg) (Family.within_foldl (within_visited g firsts) g.productions)
      (fun _ h => h.size_le hg) (Family.passBound g) _ (sound_blank g)
      (by simp only [Family.passBound]; omega)
  refine ⟨follows, passes, hok, hloop, hs.length_eq, fun n s => ?_⟩
  exact ⟨hs.follows n s, (closed_of_fixed hg hf hs.length_eq hp).mem_of_follows⟩

end Follow

/-! ## Results -/

/-- The follow sets are computed, and they have what stands behind a non-terminal in a derivation
from any non-terminal. -/
theorem follow_sets_exact (hg : g.validate = .ok ()) :
    ∃ firsts passes follows passes', First.compute g = .ok (firsts, passes) ∧
      Follow.compute g firsts = .ok (follows, passes') ∧
      Family.Settles (Follow.pass g firsts) (Family.blank g.nonTerminals.length) follows passes' ∧
      ∀ n < g.nonTerminals.length, ∃ A, follows.at? n = .ok A ∧
        (∀ t, .terminal t ∈ A ↔ ∃ m < g.nonTerminals.length, ∃ a b,
          g.Derives [.nonTerminal m] (a ++ .nonTerminal n :: .terminal t :: b)) ∧
        (.pound ∈ A ↔ (∃ p ∈ g.productions, p.left = g.start) ∧
          ∃ a, g.Derives [.nonTerminal g.start] (a ++ [.nonTerminal n])) ∧
        .empty ∉ A ∧ ∀ m, .nonTerminal m ∉ A := by
  have hvalid := Grammar.validate_eq_ok_iff.mp hg
  obtain ⟨firsts, passes, hfok, -, hf⟩ := First.compute_exact hvalid
  obtain ⟨follows, passes', hok, hloop, hexact⟩ := Follow.compute_exact hvalid hf
  refine ⟨firsts, passes, follows, passes', hfok, hok, hloop, fun n hn => ?_⟩
  refine ⟨follows.entry n, Family.at?_eq (hexact.length_eq.symm ▸ hn), fun t => ?_, ?_, ?_, ?_⟩
  · exact (hexact.mem_entry n _).trans (Grammar.follows_terminal_iff hvalid)
  · exact hexact.mem_entry n .pound
  · exact (hexact.mem_entry n .empty).mp
  · exact fun m => (hexact.mem_entry n (.nonTerminal m)).mp

theorem follow_sets_exact_recursive : recursive.validate = .ok () ∧
    ∃ firsts passes follows passes', First.compute recursive = .ok (firsts, passes) ∧
      Follow.compute recursive firsts = .ok (follows, passes') ∧
      ∃ A, follows.at? 1 = .ok A ∧ .terminal 1 ∈ A ∧ .empty ∉ A := by
  have hvalid : recursive.validate = .ok () := rfl
  obtain ⟨firsts, passes, follows, passes', hfok, hok, -, hsets⟩ := follow_sets_exact hvalid
  obtain ⟨A, hA, hterminal, -, hempty, -⟩ := hsets 1 (by decide)
  have houter : recursive.Derives [.nonTerminal 0]
      [.nonTerminal 1, .nonTerminal 0, .terminal 0] :=
    Grammar.Derives.of_production
      (p := { left := 0, right := [.nonTerminal 1, .nonTerminal 0, .terminal 0] }) (by decide)
  have hinner : recursive.Derives [.nonTerminal 0] [.terminal 1] :=
    Grammar.Derives.of_production (p := { left := 0, right := [.terminal 1] }) (by decide)
  have hbehind := houter.trans (.append_left [.nonTerminal 1] (hinner.append_right [.terminal 0]))
  exact ⟨hvalid, firsts, passes, follows, passes', hfok, hok, A, hA,
    (hterminal 1).mpr ⟨0, by decide, [], [.terminal 0], hbehind⟩, hempty⟩

end PredictiveParsing
