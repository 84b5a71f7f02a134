import PredictiveParsing.Proofs.Parse.Bounds
import PredictiveParsing.Proofs.Parse.Course

/-!
# How a loop ends

`Machine.Finishes` is the loop over a whole input, without the count of steps that `Machine.run`
goes by: it comes to a configuration and ends with the step from there (`finishes_iff`). What the
step looks at is the token behind those that were taken (`Reaches.headD_eq`).

So a step depends on no token further on, and `rejected_of_agree` follows: inputs that agree as far
as a rejected run looked are rejected in the same way, after the same actions.
-/

namespace PredictiveParsing

variable {α : Type}

namespace Machine

variable {m : Machine α} {tokens : List Token} {pool : Pool}

/-- The loop over these tokens ends. -/
def Finishes (m : Machine α) (tokens : List Token) (pool : Pool) (v : Verdict) (c : Config α) :
    Prop :=
  ∃ n, m.Ends (Lookahead.atEnd tokens) n (tokens.map (Lookahead.ofToken m.grammar)) (m.start pool)
    v c

theorem Finishes.unique {v v' : Verdict} {c c' : Config α} (h : m.Finishes tokens pool v c)
    (h' : m.Finishes tokens pool v' c') : v = v' ∧ c = c' := by
  obtain ⟨_, hends⟩ := h
  obtain ⟨_, hends'⟩ := h'
  exact hends.unique hends'

theorem Ends.exists_reaches {n : Nat} {rest : List Lookahead} {c c' : Config α} {v : Verdict}
    (h : m.Ends (Lookahead.atEnd tokens) n rest c v c') (hc : m.Reaches tokens pool rest c) :
    ∃ rest' c₁, m.Reaches tokens pool rest' c₁ ∧
      m.step (rest'.headD (Lookahead.atEnd tokens)) c₁ = .ended v c' := by
  induction h with
  | ended hs => exact ⟨_, _, hc, hs⟩
  | moved hs _ ih => exact ih (.moved hc hs)
  | taken hs _ ih => exact ih (.taken hc hs)

theorem Reaches.finishes {rest : List Lookahead} {c c' : Config α} {v : Verdict}
    (h : m.Reaches tokens pool rest c) {n : Nat}
    (hends : m.Ends (Lookahead.atEnd tokens) n rest c v c') : m.Finishes tokens pool v c' := by
  induction h generalizing n with
  | start => exact ⟨n, hends⟩
  | moved _ hs ih => exact ih (.moved hs hends)
  | taken _ hs ih => exact ih (.taken hs hends)

theorem finishes_iff {v : Verdict} {c' : Config α} :
    m.Finishes tokens pool v c' ↔ ∃ rest c, m.Reaches tokens pool rest c ∧
      m.step (rest.headD (Lookahead.atEnd tokens)) c = .ended v c' := by
  constructor
  · rintro ⟨n, hends⟩
    exact hends.exists_reaches .start
  · rintro ⟨rest, c, hc, hs⟩
    exact hc.finishes (.ended hs)

/-- A run that is accepted or rejected has come to the end of its loop. -/
theorem exists_finishes_run
    (h : (m.run tokens pool).verdict = .accepted ∨ ∃ f, (m.run tokens pool).verdict = .rejected f) :
    ∃ c, m.Finishes tokens pool (m.run tokens pool).verdict c ∧
      c.workspace = ⟨(m.run tokens pool).tree, (m.run tokens pool).pool⟩ ∧
      c.history.reverse = (m.run tokens pool).history := by
  obtain ⟨n, c, hends, hrest⟩ := exists_ends_run h
  exact ⟨c, ⟨n, hends⟩, hrest⟩

/-! ## Tokens that were taken -/

/-- The tokens that were taken when a step led from one configuration to the next. -/
def countAfter (count : Nat) : Outcome α → Nat
  | .moved _ => count
  | .taken _ => count + 1
  | .ended _ _ => count

theorem countTaken_expand (current : Lookahead) (id index : Nat) (c : Config α) :
    countTaken (m.expand current id index c).config.history =
      countAfter (countTaken c.history) (m.expand current id index c) := by
  rw [expand]
  cases m.grammar.productions[index]? with
  | none => rfl
  | some p =>
    by_cases hp : p.slots.length = p.right.length
    · have hopening := countTaken_performAll (m := m)
        (p.opening.toList.map fun action => (action, id))
        { c with history := .expanded id index current.line :: c.history }
      rw [countTaken_cons_expanded] at hopening
      simp only [if_pos hp]
      revert hopening
      rcases m.performAll _ _ with ⟨f | _, c₁⟩
      · exact fun hopening => hopening
      · exact fun hopening => hopening
    · simp only [if_neg hp]
      rfl

theorem countTaken_visit (current : Lookahead) (id : Nat) (c : Config α) :
    countTaken (m.visit current id c).config.history =
      countAfter (countTaken c.history) (m.visit current id c) := by
  rw [visit]
  split
  · rfl
  · rfl
  · split
    · rfl
    · exact countTaken_expand ..
  · split
    · split
      · rfl
      · exact countTaken_cons_took ..
    · rfl

theorem countTaken_step (current : Lookahead) (c : Config α) :
    countTaken (m.step current c).config.history =
      countAfter (countTaken c.history) (m.step current c) := by
  obtain ⟨stack, w, history⟩ := c
  cases stack with
  | nil => rfl
  | cons frame stack =>
    have hdue := countTaken_performAll (m := m) frame.due ⟨stack, w, history⟩
    rw [step]
    revert hdue
    rcases m.performAll frame.due ⟨stack, w, history⟩ with ⟨f | _, c₁⟩
    · exact fun hdue => hdue
    · exact fun hdue => (countTaken_visit current frame.node c₁).trans (by rw [hdue])

theorem countTaken_of_moved {current : Lookahead} {c c' : Config α}
    (hs : m.step current c = .moved c') : countTaken c'.history = countTaken c.history := by
  have hcount := countTaken_step (m := m) current c
  rw [hs] at hcount
  exact hcount

theorem countTaken_of_taken {current : Lookahead} {c c' : Config α}
    (hs : m.step current c = .taken c') : countTaken c'.history = countTaken c.history + 1 := by
  have hcount := countTaken_step (m := m) current c
  rw [hs] at hcount
  exact hcount

theorem countTaken_of_ended {current : Lookahead} {c c' : Config α} {v : Verdict}
    (hs : m.step current c = .ended v c') : countTaken c'.history = countTaken c.history := by
  have hcount := countTaken_step (m := m) current c
  rw [hs] at hcount
  exact hcount

theorem countTaken_advance (current : Lookahead) (bound : Nat) (c : Config α) :
    countTaken (m.advance current bound c).config.history =
      countAfter (countTaken c.history) (m.advance current bound c) := by
  induction bound generalizing c with
  | zero => rfl
  | succ bound ih =>
    have hstep := countTaken_step (m := m) current c
    rw [advance]
    revert hstep
    cases m.step current c with
    | moved c₁ =>
      intro hstep
      have hcount : countTaken c₁.history = countTaken c.history := hstep
      rw [← hcount]
      exact ih c₁
    | taken c₁ => exact fun hstep => hstep
    | ended v c₁ => exact fun hstep => hstep

theorem countTaken_le_goOn (patience : Nat) (last : Lookahead) (rest : List Lookahead)
    (c : Config α) :
    countTaken c.history ≤ countTaken (m.goOn patience last rest c).2.history := by
  induction rest generalizing c with
  | nil =>
    have hadvance := countTaken_advance (m := m) last (c.stack.length * patience + 1) c
    rw [goOn]
    revert hadvance
    cases m.advance last (c.stack.length * patience + 1) c with
    | moved c₁ => exact fun hadvance => hadvance.ge
    | taken c₁ => exact fun hadvance => (Nat.le_succ _).trans hadvance.ge
    | ended v c₁ => exact fun hadvance => hadvance.ge
  | cons current rest ih =>
    have hadvance := countTaken_advance (m := m) current (c.stack.length * patience + 1) c
    rw [goOn]
    revert hadvance
    cases m.advance current (c.stack.length * patience + 1) c with
    | moved c₁ => exact fun hadvance => hadvance.ge
    | taken c₁ => exact fun hadvance => ((Nat.le_succ _).trans hadvance.ge).trans (ih c₁)
    | ended v c₁ => exact fun hadvance => hadvance.ge

/-! ## The lookahead -/

/-- What stands behind the first `k` tokens. -/
def lookaheadAt (m : Machine α) (tokens : List Token) (k : Nat) : Lookahead :=
  ((tokens[k]?).map (Lookahead.ofToken m.grammar)).getD (Lookahead.atEnd tokens)

theorem Reaches.rest_eq {rest : List Lookahead} {c : Config α} (h : m.Reaches tokens pool rest c) :
    rest = (tokens.drop (countTaken c.history)).map (Lookahead.ofToken m.grammar) := by
  induction h with
  | start => rfl
  | moved _ hs ih =>
    rw [countTaken_of_moved hs]
    exact ih
  | taken _ hs ih =>
    rw [countTaken_of_taken hs, ← List.tail_drop, List.map_tail, ← ih, List.tail_cons]

theorem headD_map_drop (k : Nat) :
    ((tokens.drop k).map (Lookahead.ofToken m.grammar)).headD (Lookahead.atEnd tokens) =
      m.lookaheadAt tokens k := by
  rw [List.headD_eq_head?_getD, List.head?_map, List.head?_drop, lookaheadAt]

/-- The step from a configuration looks at the token behind those that were taken. -/
theorem Reaches.headD_eq {rest : List Lookahead} {c : Config α}
    (h : m.Reaches tokens pool rest c) :
    rest.headD (Lookahead.atEnd tokens) = m.lookaheadAt tokens (countTaken c.history) := by
  conv_lhs => rw [h.rest_eq]
  exact headD_map_drop _

/-! ## Inputs that agree -/

section Agree

variable {tokens' : List Token} {k : Nat}

theorem lookaheadAt_of_agree (hk : k < tokens.length) (hagree : ∀ i ≤ k, tokens'[i]? = tokens[i]?)
    {j : Nat} (hj : j ≤ k) : m.lookaheadAt tokens' j = m.lookaheadAt tokens j := by
  have hlt : j < tokens.length := Nat.lt_of_le_of_lt hj hk
  have htoken : tokens[j]? = some tokens[j] := List.getElem?_eq_getElem hlt
  rw [lookaheadAt, lookaheadAt, hagree j hj, htoken, Option.map_some, Option.getD_some,
    Option.getD_some]

/-- As long as only tokens on which the inputs agree were taken, the loops are in the same
configuration. -/
theorem Reaches.of_agree (hk : k < tokens.length) (hagree : ∀ i ≤ k, tokens'[i]? = tokens[i]?)
    {rest : List Lookahead} {c : Config α} (h : m.Reaches tokens pool rest c)
    (hc : countTaken c.history ≤ k) :
    m.Reaches tokens' pool
      ((tokens'.drop (countTaken c.history)).map (Lookahead.ofToken m.grammar)) c := by
  induction h with
  | start => exact .start
  | @moved rest c c' h hs ih =>
    rw [countTaken_of_moved hs] at hc ⊢
    refine .moved (ih hc) ?_
    rw [headD_map_drop, lookaheadAt_of_agree hk hagree hc, ← h.headD_eq]
    exact hs
  | @taken current rest c c' h hs ih =>
    rw [countTaken_of_taken hs] at hc ⊢
    have hle : countTaken c.history ≤ k := by omega
    have hlt : countTaken c.history < tokens'.length := by
      have hsome : tokens'[countTaken c.history]? ≠ none := by
        rw [hagree _ hle]
        simp
        omega
      simpa using hsome
    have hcurrent : current = Lookahead.ofToken m.grammar tokens'[countTaken c.history] := by
      have hhead := h.headD_eq
      rw [List.headD_cons, ← lookaheadAt_of_agree hk hagree hle, lookaheadAt,
        List.getElem?_eq_getElem hlt] at hhead
      exact hhead
    have hreaches := ih hle
    rw [List.drop_eq_getElem_cons hlt, List.map_cons, ← hcurrent] at hreaches
    exact .taken hreaches hs

theorem goOn_of_agree {patience : Nat} {last last' : Lookahead} {rest rest' : List Lookahead}
    (hk : k < rest.length) (hagree : ∀ i ≤ k, rest'[i]? = rest[i]?) {c : Config α}
    (hc : countTaken (m.goOn patience last rest c).2.history ≤ countTaken c.history + k) :
    m.goOn patience last' rest' c = m.goOn patience last rest c := by
  induction rest generalizing rest' k c with
  | nil => exact absurd hk (Nat.not_lt_zero k)
  | cons current rest ih =>
    have hfirst := hagree 0 (Nat.zero_le k)
    cases rest' with
    | nil => cases hfirst
    | cons current' rest' =>
      cases hfirst
      have hadvance := countTaken_advance (m := m) current (c.stack.length * patience + 1) c
      rw [goOn] at hc ⊢
      rw [goOn]
      revert hadvance hc
      cases m.advance current (c.stack.length * patience + 1) c with
      | moved c₁ => exact fun _ _ => rfl
      | ended v c₁ => exact fun _ _ => rfl
      | taken c₁ =>
        intro hc hadvance
        have hcount : countTaken c₁.history = countTaken c.history + 1 := hadvance
        have hle := countTaken_le_goOn (m := m) patience last rest c₁
        obtain ⟨k, rfl⟩ := Nat.exists_eq_add_of_lt (show 0 < k by simp only at hc; omega)
        refine ih (k := k) (by simpa using hk) (fun i hi => ?_) (by simp only at hc; omega)
        exact hagree (i + 1) (by omega)

end Agree

theorem taken_run : (m.run tokens pool).taken =
    countTaken (m.goOn m.patience (Lookahead.atEnd tokens)
      (tokens.map (Lookahead.ofToken m.grammar)) (m.start pool)).2.history :=
  List.countP_reverse

end Machine

/-! ## Results -/

/-- The loop over one input, rejected before it takes the token at `k`, and the loop over another
input with the same tokens up to there end alike: with the same failure, pool and history. So do the
counted runs. -/
theorem rejected_of_agree (m : Machine α) {tokens tokens' : List Token} {k : Nat}
    (hk : k < tokens.length) (hagree : ∀ i ≤ k, tokens'[i]? = tokens[i]?) (pool : Pool)
    (f : Failure) :
    (∀ c, m.Finishes tokens pool (.rejected f) c → Machine.countTaken c.history ≤ k →
      m.Finishes tokens' pool (.rejected f) c) ∧
    ((m.run tokens pool).verdict = .rejected f → (m.run tokens pool).taken ≤ k →
      m.run tokens' pool = m.run tokens pool) := by
  constructor
  · intro c hfinishes hcount
    obtain ⟨rest, c₁, hreaches, hs⟩ := Machine.finishes_iff.mp hfinishes
    have hcount₁ : Machine.countTaken c₁.history ≤ k :=
      (Machine.countTaken_of_ended hs).symm.le.trans hcount
    refine Machine.finishes_iff.mpr ⟨_, c₁, hreaches.of_agree hk hagree hcount₁, ?_⟩
    rw [Machine.headD_map_drop, Machine.lookaheadAt_of_agree hk hagree hcount₁, ← hreaches.headD_eq]
    exact hs
  · intro _ hcount
    rw [Machine.taken_run] at hcount
    have hsame : m.goOn m.patience (Lookahead.atEnd tokens')
          (tokens'.map (Lookahead.ofToken m.grammar)) (m.start pool) =
        m.goOn m.patience (Lookahead.atEnd tokens) (tokens.map (Lookahead.ofToken m.grammar))
          (m.start pool) := by
      refine Machine.goOn_of_agree (k := k) ?_ (fun i hi => ?_) ?_
      · rwa [List.length_map]
      · rw [List.getElem?_map, List.getElem?_map, hagree i hi]
      · exact hcount.trans (Nat.le_add_left _ _)
    rw [Machine.run, Machine.run, hsame]

inductive BlockAction where
  | enter
  | leave
  deriving DecidableEq, Repr

/-- Blocks `S -> a S b | empty`. A scope is opened before each `a`, on a line of its own, and when a
block ends there must be at most three scopes. -/
def blocks : Machine BlockAction where
  grammar :=
    { terminals := ["a", "b"]
      nonTerminals := ["S"]
      productions :=
        [{ left := 0, right := [.terminal 0, .nonTerminal 0, .terminal 1], closing := some .leave,
           slots := [some .enter, none, none] },
         { left := 0, right := [] }]
      start := 0 }
  table := ⟨2, [[some 0, some 1, some 1]], by decide⟩
  semantics
    | .enter, id => some fun w =>
      let attrs := { w.tree.attrs id with line := some w.pool.scopes.length }
      (.ok (), ⟨w.tree.setAttrs id attrs, w.pool.openScope "block"⟩)
    | .leave, _ => some fun w =>
      if w.pool.scopes.length ≤ 3 then (.ok (), w)
      else (.error (.semantic (.stated "too many blocks") none), w)

theorem local_blocks : blocks.semantics.Local := by
  intro action id effect he w
  cases action with
  | enter =>
    cases he
    exact ⟨_, rfl⟩
  | leave =>
    cases he
    refine ⟨w.tree.attrs id, ?_⟩
    rw [Tree.setAttrs_attrs]
    simp only
    split
    · rfl
    · rfl

theorem fits_blocks : blocks.table.Fits blocks.grammar := by
  refine Table.fits_iff.mpr ⟨rfl, ?_⟩
  rintro (_ | nt) cells hcells i hi
  · cases hcells
    have hcases : i = 0 ∨ i = 1 := by simpa using hi
    rcases hcases with rfl | rfl
    · exact ⟨_, rfl, rfl⟩
    · exact ⟨_, rfl, rfl⟩
  · cases hcells

def oneBlock : List Token := [⟨"a", "a", 7⟩, ⟨"b", "b", 9⟩]

/-- Two blocks, one in the other. -/
def twoBlocks : List Token := [⟨"a", "a", 1⟩, ⟨"a", "a", 2⟩, ⟨"b", "b", 2⟩, ⟨"b", "b", 3⟩]

/-- The inner block fails at its end, whatever comes behind the last `b`. -/
theorem rejected_of_agree_blocks :
    (blocks.run twoBlocks Pool.initial).verdict =
        .rejected (.semantic (.stated "too many blocks") none) ∧
      blocks.run (twoBlocks ++ [⟨"c", "c", 9⟩]) Pool.initial =
        blocks.run twoBlocks Pool.initial := by
  have hv : (blocks.run twoBlocks Pool.initial).verdict =
      .rejected (.semantic (.stated "too many blocks") none) := by
    decide +kernel
  have hagree : ∀ i ≤ 3, (twoBlocks ++ [(⟨"c", "c", 9⟩ : Token)])[i]? = twoBlocks[i]? := by
    decide
  exact ⟨hv, (rejected_of_agree blocks (by decide) hagree Pool.initial _).2 hv (by decide +kernel)⟩

end PredictiveParsing
