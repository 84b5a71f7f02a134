import PredictiveParsing.Proofs.Lookahead.First

/-!
# First sets of sequences

What the first set of a sequence is to the first sets of its parts, under any family: nothing here
asks where the sets come from.

* `mem_firstSet_append`: what stands second counts where what stands first can vanish;
* `firstSet_mono`: larger sets give larger first sets;
* `scan_eq`: the first set comes from one scan that takes in a sign when the sign before it can
  vanish, whatever the sequence, and the scan finds the same fault;
* `first_set_of_append`: the first set of two sequences, one after the other.
-/

namespace PredictiveParsing

variable {sets : Family}

theorem Family.covers_append {xs ys : List Sign} :
    sets.Covers (xs ++ ys) ↔ sets.Covers xs ∧ sets.Covers ys :=
  List.forall_mem_append

theorem Family.Covers.of_within {sets' : Family} (hw : sets.Within sets') {u : List Sign}
    (hu : sets.Covers u) : sets'.Covers u := by
  intro s hs
  have hcovers := hu s hs
  cases s with
  | terminal t => rfl
  | nonTerminal n =>
    exact Family.covers_nonTerminal.mpr (hw.length_eq ▸ Family.covers_nonTerminal.mp hcovers)
  | empty => exact hcovers
  | pound => exact hcovers

/-! ## Parts -/

theorem mem_firstSet_append {xs ys : List Sign} {s : Sign} :
    s ∈ firstSet sets (xs ++ ys) ↔
      s ∈ firstSet sets xs ∧ s ≠ .empty ∨ .empty ∈ firstSet sets xs ∧ s ∈ firstSet sets ys := by
  induction xs with
  | nil => simp [firstSet]
  | cons x xs ih =>
    cases x with
    | terminal t =>
      simp only [List.cons_append, firstSet, SignSet.mem_singleton]
      refine ⟨fun hs => .inl ⟨hs, hs ▸ Sign.noConfusion⟩, fun hs => ?_⟩
      exact hs.elim And.left fun h => Sign.noConfusion h.1
    | nonTerminal n =>
      rw [List.cons_append, mem_firstSet_nonTerminal, mem_firstSet_nonTerminal,
        mem_firstSet_nonTerminal, ih]
      tauto
    | empty => simp [firstSet]
    | pound => simp [firstSet]

theorem firstSet_append (xs ys : List Sign) :
    firstSet sets (xs ++ ys) =
      if .empty ∈ firstSet sets xs then (firstSet sets xs).withoutEmpty ∪ firstSet sets ys
      else firstSet sets xs := by
  refine SignSet.ext fun s => ?_
  rw [mem_firstSet_append]
  split
  next he => simp [he]
  next he =>
    have hne : s ∈ firstSet sets xs → s ≠ .empty := by
      rintro hs rfl
      exact he hs
    simpa [he] using hne

theorem firstSet_mono {sets' : Family} (h : ∀ n, sets.entry n ⊆ sets'.entry n) (u : List Sign) :
    firstSet sets u ⊆ firstSet sets' u := by
  induction u with
  | nil => exact fun s hs => hs
  | cons x u ih =>
    cases x with
    | terminal t => exact fun s hs => hs
    | nonTerminal n =>
      intro s hs
      rw [mem_firstSet_nonTerminal] at hs ⊢
      exact hs.imp (And.imp_left (h n s)) (And.imp (h n .empty) (ih s))
    | empty => exact fun s hs => hs
    | pound => exact fun s hs => hs

/-! ## One scan -/

/-- From a non-terminal on whose set is in `out` but for the empty word: while the visited one can
vanish, take in the sign behind it, and the empty word behind the last one. -/
def scanFrom (sets : Family) (out : SignSet) : List Sign → Except GrammarFault SignSet
  | .nonTerminal n :: rest => do
    if .empty ∈ (← sets.at? n) then
      match rest with
      | [] => return out.insert .empty
      | .terminal t :: _ => return out.insert (.terminal t)
      | .nonTerminal m :: _ => scanFrom sets (out ∪ (← sets.at? m).withoutEmpty) rest
      | s :: _ => .error (.misplaced s)
    else return out
  | _ => .ok out

/-- The first set of a sequence by one scan, the leading sign apart. -/
def scan (sets : Family) : List Sign → Except GrammarFault SignSet
  | [] => .ok (.singleton .empty)
  | .terminal t :: _ => .ok (.singleton (.terminal t))
  | .nonTerminal n :: rest => do
    scanFrom sets (← sets.at? n).withoutEmpty (.nonTerminal n :: rest)
  | s :: _ => .error (.misplaced s)

theorem SignSet.withoutEmpty_of_not_mem {A : SignSet} (h : .empty ∉ A) : A.withoutEmpty = A := by
  refine SignSet.ext fun s => ?_
  rw [mem_withoutEmpty]
  exact ⟨And.left, fun hs => ⟨hs, fun he => h (he ▸ hs)⟩⟩

theorem SignSet.union_assoc (A B C : SignSet) : A ∪ B ∪ C = A ∪ (B ∪ C) :=
  SignSet.ext fun s => by simp [or_assoc]

theorem SignSet.insert_eq_union (A : SignSet) (s : Sign) : A.insert s = A ∪ singleton s :=
  SignSet.ext fun t => by simp [or_comm]

theorem SignSet.empty_union (A : SignSet) : ∅ ∪ A = A :=
  SignSet.ext fun s => by simp

theorem firstOf_of_not_mem {n : Nat} {A : SignSet} (hA : sets.at? n = .ok A) (he : .empty ∉ A)
    (rest : List Sign) : firstOf sets (.nonTerminal n :: rest) = .ok A := by
  simp [firstOf, hA, he, bind, Except.bind, pure, Except.pure]

theorem firstOf_of_mem {n : Nat} {A : SignSet} (hA : sets.at? n = .ok A) (he : .empty ∈ A)
    (rest : List Sign) :
    firstOf sets (.nonTerminal n :: rest) = (firstOf sets rest).map (A.withoutEmpty ∪ ·) := by
  simp only [firstOf, hA, he, if_true, bind, Except.bind, pure, Except.pure]
  cases firstOf sets rest <;> rfl

/-- What a scan has taken in stays in; the rest is the first set of what is scanned. -/
theorem scanFrom_eq {n : Nat} {A : SignSet} (hA : sets.at? n = .ok A) (out : SignSet)
    (rest : List Sign) : scanFrom sets (out ∪ A.withoutEmpty) (.nonTerminal n :: rest) =
      (firstOf sets (.nonTerminal n :: rest)).map (out ∪ ·) := by
  induction rest generalizing n A out with
  | nil =>
    by_cases he : .empty ∈ A
    · simp [scanFrom, firstOf, hA, he, bind, Except.bind, pure, Except.pure, Except.map,
        SignSet.insert_eq_union, SignSet.union_assoc]
    · simp [scanFrom, firstOf_of_not_mem hA he, hA, he, bind, Except.bind, pure, Except.pure,
        Except.map, SignSet.withoutEmpty_of_not_mem he]
  | cons s rest ih =>
    by_cases he : .empty ∈ A
    · rw [firstOf_of_mem hA he]
      cases s with
      | terminal t =>
        simp [scanFrom, firstOf, hA, he, bind, Except.bind, pure, Except.pure, Except.map,
          SignSet.insert_eq_union, SignSet.union_assoc]
      | nonTerminal m =>
        cases hB : sets.at? m with
        | error fault => simp [scanFrom, firstOf, hA, hB, he, bind, Except.bind, Except.map]
        | ok B =>
          have hnext :
              scanFrom sets (out ∪ A.withoutEmpty) (.nonTerminal n :: .nonTerminal m :: rest) =
                scanFrom sets (out ∪ A.withoutEmpty ∪ B.withoutEmpty) (.nonTerminal m :: rest) := by
            rw [scanFrom]
            simp [hA, hB, he, bind, Except.bind]
          rw [hnext, ih hB]
          cases firstOf sets (.nonTerminal m :: rest) with
          | error fault => rfl
          | ok C => simp [Except.map, SignSet.union_assoc]
      | empty => simp [scanFrom, firstOf, hA, he, bind, Except.bind, Except.map]
      | pound => simp [scanFrom, firstOf, hA, he, bind, Except.bind, Except.map]
    · simp [scanFrom, firstOf_of_not_mem hA he, hA, he, bind, Except.bind, pure, Except.pure,
        Except.map, SignSet.withoutEmpty_of_not_mem he]

theorem scan_eq (sets : Family) (u : List Sign) : scan sets u = firstOf sets u := by
  cases u with
  | nil => rfl
  | cons s rest =>
    cases s with
    | nonTerminal n =>
      cases hA : sets.at? n with
      | error fault => simp [scan, firstOf, hA, bind, Except.bind]
      | ok A =>
        have hscan := scanFrom_eq hA ∅ rest
        rw [SignSet.empty_union] at hscan
        simp only [scan, hA, bind, Except.bind]
        rw [hscan]
        cases firstOf sets (.nonTerminal n :: rest) with
        | error fault => rfl
        | ok B => exact congrArg Except.ok (SignSet.empty_union B)
    | terminal t => rfl
    | empty => rfl
    | pound => rfl

/-! ## Results -/

/-- The first set of two sequences one after the other: that of the first one, with that of the
second one in the place of the empty word. It grows with the family. -/
theorem first_set_of_append {xs ys : List Sign} (hx : sets.Covers xs) (hy : sets.Covers ys) :
    ∃ A B, firstOf sets xs = .ok A ∧ firstOf sets ys = .ok B ∧
      firstOf sets (xs ++ ys) = .ok (if .empty ∈ A then A.withoutEmpty ∪ B else A) ∧
      scan sets (xs ++ ys) = firstOf sets (xs ++ ys) ∧
      ∀ sets', sets.Within sets' → ∃ A', firstOf sets' xs = .ok A' ∧ A ⊆ A' := by
  refine ⟨firstSet sets xs, firstSet sets ys, firstOf_of_covers hx, firstOf_of_covers hy, ?_,
    scan_eq sets (xs ++ ys), fun sets' hw => ?_⟩
  · rw [firstOf_of_covers (Family.covers_append.mpr ⟨hx, hy⟩), firstSet_append]
  · exact ⟨firstSet sets' xs, firstOf_of_covers (hx.of_within hw), firstSet_mono hw.entry_subset xs⟩

/-- The first one begins with a terminal or vanishes, the second one vanishes. -/
def vanishing : Family := [.ofList [.terminal 0, .empty], .ofList [.empty]]

theorem first_set_of_append_vanishing :
    vanishing.Covers [.nonTerminal 0, .nonTerminal 1] ∧
      vanishing.Covers [.nonTerminal 1, .terminal 1] ∧
      firstOf vanishing [.nonTerminal 0, .nonTerminal 1, .nonTerminal 1, .terminal 1] =
        .ok (.ofList [.terminal 0, .terminal 1]) := by
  have hx : vanishing.Covers [.nonTerminal 0, .nonTerminal 1] := by decide
  have hy : vanishing.Covers [.nonTerminal 1, .terminal 1] := by decide
  obtain ⟨A, B, hA, hB, happend, -⟩ := first_set_of_append hx hy
  obtain rfl : .ofList [.terminal 0, .empty] = A := Except.ok.inj hA
  obtain rfl : .ofList [.terminal 1] = B := Except.ok.inj hB
  exact ⟨hx, hy, happend⟩

end PredictiveParsing
