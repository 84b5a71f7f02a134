import Mathlib.Algebra.GroupWithZero.Nat
import Mathlib.Algebra.Order.BigOperators.Group.List
import Mathlib.Algebra.Order.Group.Nat
import PredictiveParsing.Lookahead.First

/-!
# Families that grow

A pass over the productions is a sequence of `joined` steps, each of which puts signs into one set.
Families are compared set by set (`Within`). `Settles` is the loop that repeats a pass without
counting; `settle_spec` says that for an inflationary pass over families of bounded size this loop
ends, with the family that `settle` gives, and that the pass leaves that family as it is.
`foldl_fixed` says that each single step of the pass then does so too.
-/

namespace PredictiveParsing

namespace SignSet

instance : HasSubset SignSet := ⟨fun A B => ∀ s ∈ A, s ∈ B⟩

theorem nodup (A : SignSet) : A.members.Nodup := by
  refine A.increasing.imp fun {a b} hlt he => ?_
  subst he
  exact Sign.lt_irrefl a hlt

theorem eq_of_subset {A B : SignSet} (h : A ⊆ B) (h' : B ⊆ A) : A = B :=
  ext fun s => ⟨h s, h' s⟩

theorem length_le_of_subset {A : SignSet} {signs : List Sign} (h : ∀ s ∈ A, s ∈ signs) :
    A.members.length ≤ signs.length :=
  (List.subperm_of_subset A.nodup h).length_le

theorem eq_of_subset_of_length_le {A B : SignSet} (h : A ⊆ B)
    (hl : B.members.length ≤ A.members.length) : A = B := by
  have hp := (List.subperm_of_subset A.nodup h).perm_of_length_le hl
  exact eq_of_subset h fun s hs => hp.mem_iff.mpr hs

end SignSet

namespace Family

/-- The set of `nt`, with nothing in it when the family has none for `nt`. -/
def entry (sets : Family) (nt : Nat) : SignSet := (sets[nt]?).getD ∅

def joined (sets : Family) (nt : Nat) (A : SignSet) : Family := sets.set nt (sets.entry nt ∪ A)

theorem at?_eq {sets : Family} {nt : Nat} (h : nt < sets.length) :
    sets.at? nt = .ok (sets.entry nt) := by
  simp [at?, entry, h]

theorem join_eq {sets : Family} {nt : Nat} (h : nt < sets.length) (A : SignSet) :
    sets.join nt A = .ok (sets.joined nt A) := by
  simp [join, joined, at?_eq h, bind, Except.bind, pure, Except.pure]

@[simp] theorem length_joined (sets : Family) (nt : Nat) (A : SignSet) :
    (sets.joined nt A).length = sets.length := by
  simp [joined]

@[simp] theorem length_blank (n : Nat) : (blank n).length = n := by
  simp [blank]

@[simp] theorem entry_blank (n nt : Nat) : (blank n).entry nt = ∅ := by
  simp only [entry, blank, List.getElem?_replicate]
  split <;> rfl

theorem mem_entry_joined {sets : Family} {nt : Nat} (h : nt < sets.length) {A : SignSet} {m : Nat}
    {s : Sign} : s ∈ (sets.joined nt A).entry m ↔ s ∈ sets.entry m ∨ m = nt ∧ s ∈ A := by
  rw [entry, joined]
  by_cases hm : m = nt
  · subst hm
    simp [h]
  · simp [entry, List.getElem?_set_ne (Ne.symm hm), hm]

/-! ## Order and size -/

structure Within (sets sets' : Family) : Prop where
  length_eq : sets.length = sets'.length
  entry_subset : ∀ nt, sets.entry nt ⊆ sets'.entry nt

theorem Within.refl (sets : Family) : sets.Within sets := ⟨rfl, fun _ _ h => h⟩

theorem Within.trans {sets sets' sets'' : Family} (h : sets.Within sets')
    (h' : sets'.Within sets'') : sets.Within sets'' :=
  ⟨h.length_eq.trans h'.length_eq, fun nt s hs => h'.entry_subset nt s (h.entry_subset nt s hs)⟩

theorem Within.antisymm {sets sets' : Family} (h : sets.Within sets') (h' : sets'.Within sets) :
    sets = sets' := by
  refine List.ext_getElem h.length_eq fun i hi hi' => ?_
  have he := SignSet.eq_of_subset (h.entry_subset i) (h'.entry_subset i)
  simpa [entry, hi, hi'] using he

theorem within_joined (sets : Family) (nt : Nat) (A : SignSet) :
    sets.Within (sets.joined nt A) := by
  refine ⟨(length_joined ..).symm, fun m s hs => ?_⟩
  by_cases h : nt < sets.length
  · exact (mem_entry_joined h).mpr (.inl hs)
  · rwa [joined, List.set_eq_of_length_le (by omega)]

/-- Putting in what is there already changes nothing. -/
theorem joined_of_subset {sets : Family} {nt : Nat} (hn : nt < sets.length) {A : SignSet}
    (h : A ⊆ sets.entry nt) : sets.joined nt A = sets := by
  refine Within.antisymm ⟨length_joined .., fun m s hs => ?_⟩ (within_joined ..)
  rcases (mem_entry_joined hn).mp hs with hold | ⟨rfl, hnew⟩
  · exact hold
  · exact h s hnew

/-- The number of members of all sets together. -/
def size (sets : Family) : Nat := (sets.map fun A => A.members.length).sum

theorem size_le {sets : Family} {signs : List Sign} (h : ∀ nt, ∀ s ∈ sets.entry nt, s ∈ signs) :
    sets.size ≤ sets.length * signs.length := by
  have hle : ∀ n ∈ sets.map fun A => A.members.length, n ≤ signs.length := by
    intro n hn
    obtain ⟨A, hA, rfl⟩ := List.mem_map.mp hn
    obtain ⟨i, hi, rfl⟩ := List.mem_iff_getElem.mp hA
    refine SignSet.length_le_of_subset fun s hs => h i s ?_
    simpa [entry, hi] using hs
  simpa [size] using List.sum_le_card_nsmul _ _ hle

/-- A family that is not smaller than one around it is that one. -/
theorem Within.eq_of_size_le {sets sets' : Family} (h : sets.Within sets')
    (hs : sets'.size ≤ sets.size) : sets = sets' := by
  suffices ∀ sets sets' : Family, sets.Within sets' →
      sets.size ≤ sets'.size ∧ (sets'.size ≤ sets.size → sets = sets') from (this _ _ h).2 hs
  intro sets
  induction sets with
  | nil =>
    intro sets' h
    obtain rfl := List.length_eq_zero_iff.mp h.length_eq.symm
    exact ⟨Nat.le_refl _, fun _ => rfl⟩
  | cons A sets ih =>
    intro sets' h
    cases sets' with
    | nil => cases h.length_eq
    | cons B sets' =>
      have hAB : A ⊆ B := h.entry_subset 0
      have htail : Within sets sets' :=
        ⟨by simpa using h.length_eq, fun nt => h.entry_subset (nt + 1)⟩
      have hl := SignSet.length_le_of_subset hAB
      obtain ⟨hle, heq⟩ := ih sets' htail
      simp only [size, List.map_cons, List.sum_cons] at hle heq ⊢
      refine ⟨by omega, fun hs => ?_⟩
      rw [SignSet.eq_of_subset_of_length_le hAB (by omega), heq (by omega)]

theorem Within.size_lt {sets sets' : Family} (h : sets.Within sets') (hne : sets' ≠ sets) :
    sets.size < sets'.size :=
  Nat.lt_of_not_le fun hs => hne (h.eq_of_size_le hs).symm

/-! ## Passes -/

theorem within_foldl {β : Type} {f : Family → β → Family}
    (h : ∀ (sets : Family) (b : β), sets.Within (f sets b)) (bs : List β) (sets : Family) :
    sets.Within (bs.foldl f sets) := by
  induction bs generalizing sets with
  | nil => exact .refl sets
  | cons b bs ih => exact (h sets b).trans (ih (f sets b))

/-- When a sequence of inflationary steps changes nothing, no step does. -/
theorem foldl_fixed {β : Type} {f : Family → β → Family}
    (h : ∀ (sets : Family) (b : β), sets.Within (f sets b)) {bs : List β} {sets : Family}
    (hf : bs.foldl f sets = sets) : ∀ b ∈ bs, f sets b = sets := by
  induction bs with
  | nil => simp
  | cons b bs ih =>
    have hback : (f sets b).Within sets := by
      have hw := within_foldl h bs (f sets b)
      rwa [← List.foldl_cons, hf] at hw
    have hb : f sets b = sets := hback.antisymm (h sets b)
    rw [List.foldl_cons, hb] at hf
    exact List.forall_mem_cons.mpr ⟨hb, ih hf⟩

theorem foldlM_eq_foldl {β : Type} {visit : Family → β → Except GrammarFault Family}
    {visited : Family → β → Family} {n : Nat} {bs : List β}
    (h : ∀ sets b, b ∈ bs → sets.length = n → visit sets b = .ok (visited sets b))
    (hlen : ∀ sets b, (visited sets b).length = sets.length) {sets : Family}
    (hs : sets.length = n) : bs.foldlM visit sets = .ok (bs.foldl visited sets) := by
  induction bs generalizing sets with
  | nil => rfl
  | cons b bs ih =>
    rw [List.foldlM_cons, h sets b List.mem_cons_self hs, List.foldl_cons]
    exact ih (fun sets b hb => h sets b (List.mem_cons_of_mem _ hb)) ((hlen sets b).trans hs)

/-- The loop makes so many passes, the last one because it changes nothing. -/
inductive Settles (pass : Family → Except GrammarFault Family) : Family → Family → Nat → Prop
  | last {sets : Family} (h : pass sets = .ok sets) : Settles pass sets sets 1
  | again {sets next settled : Family} {passes : Nat} (h : pass sets = .ok next)
      (hne : next ≠ sets) (h' : Settles pass next settled passes) :
      Settles pass sets settled (passes + 1)

/-- Repeating a pass that keeps `Inv` ends with a family that the pass leaves as it is. -/
theorem settle_spec {pass : Family → Except GrammarFault Family} {passed : Family → Family}
    {Inv : Family → Prop} {top : Nat} (hpass : ∀ sets, Inv sets → pass sets = .ok (passed sets))
    (hinv : ∀ sets, Inv sets → Inv (passed sets))
    (hgrow : ∀ sets : Family, sets.Within (passed sets))
    (htop : ∀ sets : Family, Inv sets → sets.size ≤ top) (bound : Nat) (sets : Family)
    (hs : Inv sets) (hb : top < sets.size + bound) :
    ∃ settled passes, settle pass bound sets = .ok (settled, passes) ∧
      Settles pass sets settled passes ∧ Inv settled ∧ passed settled = settled := by
  induction bound generalizing sets with
  | zero =>
    have := htop sets hs
    omega
  | succ bound ih =>
    by_cases he : passed sets = sets
    · refine ⟨sets, 1, ?_, .last (by rw [hpass sets hs, he]), hs, he⟩
      simp [settle, hpass sets hs, he, bind, Except.bind, pure, Except.pure]
    · have hlt := (hgrow sets).size_lt he
      obtain ⟨settled, passes, hok, hloop, hi, hf⟩ := ih (passed sets) (hinv sets hs) (by omega)
      refine ⟨settled, passes + 1, ?_, .again (hpass sets hs) he hloop, hi, hf⟩
      simp [settle, hpass sets hs, he, hok, bind, Except.bind, pure, Except.pure]

end Family

end PredictiveParsing
