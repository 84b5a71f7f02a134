import PredictiveParsing.Grammar.Sign

/-!
# Finite sets of signs

A set is kept as the increasing list of its members, so a set has one form only and `members` lists
it in the order of signs.

* `mem_insert`, `mem_union`, `mem_withoutEmpty`: what each operation does to membership;
* `ext`: two sets with the same members are equal.
-/

namespace PredictiveParsing

def insertSign (s : Sign) : List Sign → List Sign
  | [] => [s]
  | t :: ts => if s < t then s :: t :: ts else if s = t then t :: ts else t :: insertSign s ts

theorem mem_insertSign {s x : Sign} {ts : List Sign} :
    x ∈ insertSign s ts ↔ x = s ∨ x ∈ ts := by
  induction ts with
  | nil => simp [insertSign]
  | cons t ts ih =>
    simp only [insertSign]
    split
    · simp
    · split
      · subst s; simp
      · simp only [List.mem_cons, ih, or_left_comm]

theorem pairwise_insertSign {s : Sign} {ts : List Sign} (h : ts.Pairwise (· < ·)) :
    (insertSign s ts).Pairwise (· < ·) := by
  induction ts with
  | nil => simp [insertSign]
  | cons t ts ih =>
    obtain ⟨ht, hs⟩ := List.pairwise_cons.mp h
    simp only [insertSign]
    split
    next hlt =>
      refine List.pairwise_cons.mpr ⟨fun x hx => ?_, h⟩
      rcases List.mem_cons.mp hx with rfl | hx
      · exact hlt
      · exact Sign.lt_trans hlt (ht x hx)
    next hlt =>
      split
      · exact h
      next hne =>
        refine List.pairwise_cons.mpr ⟨fun x hx => ?_, ih hs⟩
        rcases mem_insertSign.mp hx with rfl | hx
        · exact (Sign.lt_or_lt_of_ne hne).resolve_left hlt
        · exact ht x hx

structure SignSet where
  members : List Sign
  increasing : members.Pairwise (· < ·)
  deriving DecidableEq

namespace SignSet

instance : Membership Sign SignSet := ⟨fun A s => s ∈ A.members⟩

theorem mem_members {A : SignSet} {s : Sign} : s ∈ A.members ↔ s ∈ A := Iff.rfl

instance (s : Sign) (A : SignSet) : Decidable (s ∈ A) := decidable_of_iff _ mem_members

instance : EmptyCollection SignSet := ⟨⟨[], .nil⟩⟩

instance : Inhabited SignSet := ⟨∅⟩

def singleton (s : Sign) : SignSet := ⟨[s], List.pairwise_singleton _ s⟩

def insert (A : SignSet) (s : Sign) : SignSet :=
  ⟨insertSign s A.members, pairwise_insertSign A.increasing⟩

/-- The set with the signs of `ss` put in. -/
def insertAll (A : SignSet) (ss : List Sign) : SignSet := ss.foldl insert A

def ofList (ss : List Sign) : SignSet := insertAll ∅ ss

instance : Union SignSet := ⟨fun A B => A.insertAll B.members⟩

/-- The members other than the empty word. -/
def withoutEmpty (A : SignSet) : SignSet := ⟨A.members.filter (· ≠ .empty), A.increasing.filter _⟩

def disjoint (A B : SignSet) : Bool := A.members.all fun s => decide (s ∉ B)

@[simp] theorem not_mem_empty (s : Sign) : s ∉ (∅ : SignSet) := List.not_mem_nil

@[simp] theorem mem_singleton {s t : Sign} : s ∈ singleton t ↔ s = t := List.mem_singleton

@[simp] theorem mem_insert {A : SignSet} {s t : Sign} : s ∈ A.insert t ↔ s = t ∨ s ∈ A :=
  mem_insertSign

@[simp] theorem mem_insertAll {A : SignSet} {ss : List Sign} {s : Sign} :
    s ∈ A.insertAll ss ↔ s ∈ A ∨ s ∈ ss := by
  induction ss generalizing A with
  | nil => simp [insertAll]
  | cons t ts ih =>
    have h : A.insertAll (t :: ts) = (A.insert t).insertAll ts := rfl
    rw [h, ih, mem_insert, List.mem_cons, or_comm (a := s = t), or_assoc]

@[simp] theorem mem_ofList {ss : List Sign} {s : Sign} : s ∈ ofList ss ↔ s ∈ ss := by
  simp [ofList]

@[simp] theorem mem_union {A B : SignSet} {s : Sign} : s ∈ A ∪ B ↔ s ∈ A ∨ s ∈ B :=
  mem_insertAll

@[simp] theorem mem_withoutEmpty {A : SignSet} {s : Sign} :
    s ∈ A.withoutEmpty ↔ s ∈ A ∧ s ≠ .empty := by
  rw [← mem_members, withoutEmpty, List.mem_filter, mem_members, decide_eq_true_iff]

theorem disjoint_iff {A B : SignSet} : A.disjoint B = true ↔ ∀ s ∈ A, s ∉ B := by
  simp [disjoint, List.all_eq_true, mem_members]

/-- Increasing lists with the same members are equal. -/
theorem eq_of_mem_iff {xs ys : List Sign} (hx : xs.Pairwise (· < ·)) (hy : ys.Pairwise (· < ·))
    (h : ∀ s, s ∈ xs ↔ s ∈ ys) : xs = ys := by
  induction xs generalizing ys with
  | nil => exact (List.eq_nil_iff_forall_not_mem.mpr fun s hs => by simpa using (h s).mpr hs).symm
  | cons x xs ih =>
    cases ys with
    | nil => simpa using (h x).mp List.mem_cons_self
    | cons y ys =>
      obtain ⟨hxs, hx'⟩ := List.pairwise_cons.mp hx
      obtain ⟨hys, hy'⟩ := List.pairwise_cons.mp hy
      have hxy : x = y := by
        rcases List.mem_cons.mp ((h x).mp List.mem_cons_self) with e | hm
        · exact e
        rcases List.mem_cons.mp ((h y).mpr List.mem_cons_self) with e | hn
        · exact e.symm
        exact absurd (Sign.lt_trans (hxs y hn) (hys x hm)) (Sign.lt_irrefl x)
      subst hxy
      refine congrArg (x :: ·) (ih hx' hy' fun s => ⟨fun hs => ?_, fun hs => ?_⟩)
      · rcases List.mem_cons.mp ((h s).mp (List.mem_cons_of_mem _ hs)) with rfl | hs'
        · exact absurd (hxs s hs) (Sign.lt_irrefl s)
        · exact hs'
      · rcases List.mem_cons.mp ((h s).mpr (List.mem_cons_of_mem _ hs)) with rfl | hs'
        · exact absurd (hys s hs) (Sign.lt_irrefl s)
        · exact hs'

theorem ext {A B : SignSet} (h : ∀ s, s ∈ A ↔ s ∈ B) : A = B := by
  cases A with
  | mk xs hx =>
    cases B with
    | mk ys hy => cases eq_of_mem_iff hx hy h; rfl

end SignSet

end PredictiveParsing
