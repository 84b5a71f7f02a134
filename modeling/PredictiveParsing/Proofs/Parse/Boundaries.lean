import Mathlib.Logic.Relation
import PredictiveParsing.Proofs.Parse.Bounds
import PredictiveParsing.Proofs.Parse.Course

/-!
# Between two actions

Only actions change the pool. So the pools of a run, from one action to the next, are a sequence in
which each comes from the one before by an action (`Semantics.Turns`). `Machine.Boundary` are the
workspaces before and after each action of a run and at each configuration that it comes to; the
pool there lies on the way from the first pool of the run to the last (`Boundary.between`).
-/

namespace PredictiveParsing

open Relation

variable {α : Type}

/-- An action turns one pool into another. -/
inductive Semantics.Turns (s : Semantics α) : Pool → Pool → Prop
  | act (action : α) (id : Nat) (w : Workspace) : Turns s w.pool (s.at (some action) id w).2.pool

/-- Some actions, one after the other, turn one pool into another. -/
abbrev Semantics.Becomes (s : Semantics α) : Pool → Pool → Prop := ReflTransGen s.Turns

theorem Semantics.becomes_all (s : Semantics α) (due : List (α × Nat)) (w : Workspace) :
    s.Becomes w.pool (s.all due w).2.pool := by
  induction due generalizing w with
  | nil => exact .refl
  | cons head due ih =>
    obtain ⟨action, id⟩ := head
    have hfirst := Semantics.Turns.act (s := s) action id w
    rw [Semantics.all, Effect.andThen]
    revert hfirst
    rcases s.at (some action) id w with ⟨f | _, w₁⟩
    · exact fun hfirst => .single hfirst
    · exact fun hfirst => .head hfirst (ih w₁)

namespace Machine

variable {m : Machine α}

/-! ## Steps -/

theorem becomes_performAll {due : List (α × Nat)} {c c' : Config α} {r : Except Failure Unit}
    (h : m.performAll due c = (r, c')) : m.semantics.Becomes c.workspace.pool c'.workspace.pool := by
  obtain ⟨history, he⟩ := performAll_eq (m := m) due c
  cases he.symm.trans h
  exact m.semantics.becomes_all due c.workspace

theorem becomes_expand (current : Lookahead) (id i : Nat) (c : Config α) :
    m.semantics.Becomes c.workspace.pool (m.expand current id i c).config.workspace.pool := by
  rw [expand]
  cases m.grammar.productions[i]? with
  | none => exact .refl
  | some p =>
    by_cases hp : p.slots.length = p.right.length
    · simp only [if_pos hp]
      generalize ho : m.performAll _ _ = o
      obtain ⟨r, c₁⟩ := o
      have hbecomes := becomes_performAll ho
      cases r with
      | ok => exact hbecomes
      | error f => exact hbecomes
    · simp only [if_neg hp]
      exact .refl

theorem becomes_visit (current : Lookahead) (id : Nat) (c : Config α) :
    m.semantics.Becomes c.workspace.pool (m.visit current id c).config.workspace.pool := by
  rw [visit]
  split
  · exact .refl
  · exact .refl
  · split
    · exact .refl
    · exact becomes_expand ..
  · split
    · split
      · exact .refl
      · exact .refl
    · exact .refl

theorem becomes_step {current : Lookahead} {c : Config α} {o : Outcome α}
    (h : m.step current c = o) :
    m.semantics.Becomes c.workspace.pool o.config.workspace.pool := by
  subst h
  obtain ⟨stack, w, history⟩ := c
  cases stack with
  | nil => exact .refl
  | cons frame stack =>
    rw [step]
    generalize ho : m.performAll _ _ = o
    obtain ⟨r, c₁⟩ := o
    have hbecomes := becomes_performAll ho
    cases r with
    | ok => exact hbecomes.trans (becomes_visit ..)
    | error f => exact hbecomes

/-- An action that runs in a step lies on the way from the pool before the step to the one after
it. -/
theorem Performs.between {current : Lookahead} {c : Config α} {action : α} {id : Nat}
    {w : Workspace} (h : m.Performs current c action id w) :
    m.semantics.Becomes c.workspace.pool w.pool ∧
      m.semantics.Becomes (m.semantics.at (some action) id w).2.pool
        (m.step current c).config.workspace.pool := by
  cases h with
  | @due frame stack w history before after _ _ c₁ hdue hbefore =>
    refine ⟨becomes_performAll (c := ⟨stack, w, history⟩) hbefore, ?_⟩
    obtain ⟨history₁, haction⟩ := perform_eq (m := m) action id c₁
    rw [step, hdue, performAll_append, hbefore]
    simp only [performAll, haction]
    rcases m.semantics.at (some action) id c₁.workspace with ⟨f | _, w₁⟩
    · exact .refl
    -- What is left of the step is one in which the actions behind this one are due.
    · exact becomes_step (c := ⟨⟨after, frame.node⟩ :: c₁.stack, w₁, history₁⟩) rfl
  | @opening frame stack w history c₁ nt i p _ hdue hsign hi hp hslots haction =>
    refine ⟨becomes_performAll (c := ⟨stack, w, history⟩) hdue, ?_⟩
    have hsign' : (c₁.workspace.tree.node? frame.node).map Node.sign = some (.nonTerminal nt) :=
      hsign
    obtain ⟨history₁, hopening⟩ := perform_eq (m := m) action frame.node
      { c₁ with history := .expanded frame.node i current.line :: c₁.history }
    simp only [step, hdue, visit, hsign', hi, expand, hp, if_pos hslots, haction,
      Option.toList_some, List.map_cons, List.map_nil, performAll, hopening]
    rcases m.semantics.at (some action) frame.node c₁.workspace with ⟨f | _, w₁⟩
    · exact .refl
    · exact .refl

/-! ## Runs -/

section Runs

variable {tokens : List Token} {pool : Pool} {rest : List Lookahead} {c : Config α}

theorem Reaches.becomes (h : m.Reaches tokens pool rest c) :
    m.semantics.Becomes pool c.workspace.pool := by
  induction h with
  | start => exact .refl
  | moved _ hs ih => exact ih.trans (becomes_step hs)
  | taken _ hs ih => exact ih.trans (becomes_step hs)

theorem Ends.becomes {last : Lookahead} {n : Nat} {c' : Config α} {v : Verdict}
    (h : m.Ends last n rest c v c') : m.semantics.Becomes c.workspace.pool c'.workspace.pool := by
  induction h with
  | ended hs => exact becomes_step hs
  | moved hs _ ih => exact (becomes_step hs).trans ih
  | taken hs _ ih => exact (becomes_step hs).trans ih

/-- From wherever the loop comes to, it ends as the run does. -/
theorem Reaches.ends (h : m.Reaches tokens pool rest c) {n : Nat} {v : Verdict} {c' : Config α}
    (hends : m.Ends (Lookahead.atEnd tokens) n (tokens.map (Lookahead.ofToken m.grammar))
      (m.start pool) v c') : ∃ k, m.Ends (Lookahead.atEnd tokens) k rest c v c' := by
  induction h with
  | start => exact ⟨n, hends⟩
  | @moved rest c c₁ _ hs ih =>
    obtain ⟨k, hk⟩ := ih
    have hstep := hk.cases
    rw [hs] at hstep
    obtain ⟨j, -, hj⟩ := hstep
    exact ⟨j, hj⟩
  | @taken current rest c c₁ _ hs ih =>
    obtain ⟨k, hk⟩ := ih
    have hstep := hk.cases
    rw [List.headD_cons, hs] at hstep
    obtain ⟨_, _, hrest, j, -, hj⟩ := hstep
    cases hrest
    exact ⟨j, hj⟩

/-- What the step from a configuration leads to, the loop goes on from or ends with. -/
theorem Ends.becomes_of_step {last : Lookahead} {n : Nat} {c' : Config α} {v : Verdict}
    (h : m.Ends last n rest c v c') :
    m.semantics.Becomes (m.step (rest.headD last) c).config.workspace.pool c'.workspace.pool := by
  have hstep := h.cases
  revert hstep
  cases m.step (rest.headD last) c with
  | ended v₁ c₁ =>
    rintro ⟨-, rfl⟩
    exact .refl
  | moved c₁ =>
    rintro ⟨k, -, hk⟩
    exact hk.becomes
  | taken c₁ =>
    rintro ⟨_, _, -, k, -, hk⟩
    exact hk.becomes

/-- The workspaces between the actions of a run: where the loop comes to, and before and after each
action. -/
inductive Boundary (m : Machine α) (tokens : List Token) (pool : Pool) : Workspace → Prop
  | reached {rest : List Lookahead} {c : Config α} (h : m.Reaches tokens pool rest c) :
      Boundary m tokens pool c.workspace
  | before {rest : List Lookahead} {c : Config α} {action : α} {id : Nat} {w : Workspace}
      (h : m.Reaches tokens pool rest c)
      (ha : m.Performs (rest.headD (Lookahead.atEnd tokens)) c action id w) :
      Boundary m tokens pool w
  | after {rest : List Lookahead} {c : Config α} {action : α} {id : Nat} {w : Workspace}
      (h : m.Reaches tokens pool rest c)
      (ha : m.Performs (rest.headD (Lookahead.atEnd tokens)) c action id w) :
      Boundary m tokens pool (m.semantics.at (some action) id w).2

/-- At a boundary the pool comes from the first of the run and leads to its last. -/
theorem Boundary.between {w : Workspace} (h : m.Boundary tokens pool w)
    (hends : (m.run tokens pool).verdict = .accepted ∨
      ∃ f, (m.run tokens pool).verdict = .rejected f) :
    m.semantics.Becomes pool w.pool ∧ m.semantics.Becomes w.pool (m.run tokens pool).pool := by
  obtain ⟨n, c', hn, hw, -⟩ := exists_ends_run hends
  have hpool : c'.workspace.pool = (m.run tokens pool).pool := congrArg Workspace.pool hw
  rw [← hpool]
  cases h with
  | reached h =>
    obtain ⟨k, hk⟩ := h.ends hn
    exact ⟨h.becomes, hk.becomes⟩
  | @before rest c action id w h ha =>
    obtain ⟨k, hk⟩ := h.ends hn
    obtain ⟨hbefore, hafter⟩ := ha.between
    refine ⟨h.becomes.trans hbefore, ?_⟩
    exact .head (.act action id w) (hafter.trans hk.becomes_of_step)
  | @after rest c action id w h ha =>
    obtain ⟨k, hk⟩ := h.ends hn
    obtain ⟨hbefore, hafter⟩ := ha.between
    exact ⟨(h.becomes.trans hbefore).tail (.act action id w), hafter.trans hk.becomes_of_step⟩

end Runs

end Machine

end PredictiveParsing
