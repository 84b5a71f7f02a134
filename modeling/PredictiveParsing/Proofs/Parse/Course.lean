import PredictiveParsing.Proofs.Parse.Walk
import PredictiveParsing.Proofs.Table.Fitting

/-!
# The course of a run

A course is a derivation forest as far as a run got. It has a leaf for each token that was taken and
a node for each expansion, and where the run failed before it was through, a stop stands for the
signs that were not visited any more. The walk over a course runs the actions like the walk over a
forest, and fails at a stop.

* `Ends.exists_course`: however the table chooses among the productions of a non-terminal, what the
  loop does from some frames on is the walk over a course that starts with their signs;
* `Ends.exists_course_of_start`: so is what it does with a whole input;
* `Course.exists_forest`: a course whose walk succeeds is a derivation forest.
-/

namespace PredictiveParsing

variable {α : Type}

/-- The failures of the machine itself: at a token or the end mark, or at a production with too many
or too few slots. -/
inductive Grammar.Refuses (g : Grammar α) : Failure → Prop
  | unexpected (text : String) (line : Nat) : g.Refuses (.unexpected text line)
  | arity {p : Production α} (hp : p ∈ g.productions) (h : p.slots.length ≠ p.right.length) :
      g.Refuses (.arity (g.textOf p))

inductive Course (α : Type) where
  | nil
  /-- The run fails at the first of these signs, behind the action of its slot. -/
  | stop (failure : Failure) (signs : List Sign)
  | leaf (terminal : Nat) (token : Token) (rest : Course α)
  | node (p : Production α) (below rest : Course α)

namespace Course

def roots : Course α → List Sign
  | nil => []
  | stop _ signs => signs
  | leaf i _ rest => .terminal i :: roots rest
  | node p _ rest => .nonTerminal p.left :: roots rest

def tokens : Course α → List Token
  | nil => []
  | stop _ _ => []
  | leaf _ token rest => token :: tokens rest
  | node _ below rest => tokens below ++ tokens rest

/-- Tokens, productions and failures are such as the machine for `g` comes to. -/
def Grows (g : Grammar α) : Course α → Prop
  | nil => True
  | stop f _ => g.Refuses f
  | leaf i token rest => g.terminal token.kind = some (.terminal i) ∧ Grows g rest
  | node p below rest =>
    (p ∈ g.productions ∧ p.slots.length = p.right.length ∧ below.roots = p.right ∧ Grows g below) ∧
      Grows g rest

/-- Walk over a course whose roots are the nodes from `id` on. -/
def walk (s : Semantics α) : Course α → Nat → List (Option α) → Effect
  | nil, _, _ => Effect.done
  | stop f _, id, slots => (s.at slots.head?.join id).andThen fun w => (.error f, w)
  | leaf _ token rest, id, slots =>
    (s.at slots.head?.join id).andThen
      ((Effect.take token id).andThen (walk s rest (id + 1) slots.tail))
  | node p below rest, id, slots =>
    (s.at slots.head?.join id).andThen <|
      (s.at p.opening id).andThen <|
        (Effect.branch id p.right fun first => walk s below first p.slots).andThen <|
          (s.at p.closing id).andThen (walk s rest (id + 1) slots.tail)

theorem keeps_walk {s : Semantics α} (hs : s.Local) (T : Course α)
    (id : Nat) (slots : List (Option α)) : (T.walk s id slots).Keeps := by
  induction T generalizing id slots with
  | nil => exact Effect.keeps_done
  | stop f _ => exact (hs.keeps_at _ id).andThen fun w => .refl w.tree
  | leaf i token rest ih =>
    exact (hs.keeps_at _ id).andThen ((Effect.keeps_take token id).andThen (ih _ _))
  | node p below rest ihb ihr =>
    refine (hs.keeps_at _ id).andThen ((hs.keeps_at _ id).andThen ?_)
    exact (Effect.Keeps.branch fun first => ihb first _).andThen
      ((hs.keeps_at _ id).andThen (ihr _ _))

/-! ## Courses without a stop -/

def ofForest : Forest α → Course α
  | .nil => nil
  | .leaf i token rest => leaf i token (ofForest rest)
  | .node p below rest => node p (ofForest below) (ofForest rest)

theorem roots_ofForest (F : Forest α) : (ofForest F).roots = F.roots := by
  induction F with
  | nil => rfl
  | leaf i token rest ih => exact congrArg _ ih
  | node p below rest ihb ihr => exact congrArg _ ihr

theorem tokens_ofForest (F : Forest α) : (ofForest F).tokens = F.tokens := by
  induction F with
  | nil => rfl
  | leaf i token rest ih => exact congrArg _ ih
  | node p below rest ihb ihr => rw [ofForest, tokens, Forest.tokens, ihb, ihr]

theorem walk_ofForest (s : Semantics α) (F : Forest α) (id : Nat) (slots : List (Option α)) :
    (ofForest F).walk s id slots = F.walk s id slots := by
  induction F generalizing id slots with
  | nil => rfl
  | leaf i token rest ih => rw [ofForest, walk, Forest.walk, ih]
  | node p below rest ihb ihr => simp only [ofForest, walk, Forest.walk, ihb, ihr]

theorem grows_ofForest {g : Grammar α} {F : Forest α} :
    (ofForest F).Grows g ↔
      F.Grows g ∧ F.Everywhere fun p _ => p.slots.length = p.right.length := by
  induction F with
  | nil => simp [ofForest, Grows, Forest.Grows, Forest.Everywhere]
  | leaf i token rest ih => simp only [ofForest, Grows, Forest.Grows, Forest.Everywhere, ih, and_assoc]
  | node p below rest ihb ihr =>
    simp only [ofForest, Grows, Forest.Grows, Forest.Everywhere, ihb, ihr, roots_ofForest]
    tauto

theorem andThen_eq_ok {e e' : Effect} {w w' : Workspace} (h : e.andThen e' w = (.ok (), w')) :
    ∃ w₁, e w = (.ok (), w₁) ∧ e' w₁ = (.ok (), w') := by
  rw [Effect.andThen] at h
  rcases he : e w with ⟨_ | _, w₁⟩
  · rw [he] at h
    cases h
  · rw [he] at h
    exact ⟨w₁, rfl, h⟩

/-- A course whose walk succeeds is a forest. -/
theorem exists_forest {s : Semantics α} {T : Course α} {id : Nat} {slots : List (Option α)}
    {w w' : Workspace} (h : T.walk s id slots w = (.ok (), w')) : ∃ F, ofForest F = T := by
  induction T generalizing id slots w w' with
  | nil => exact ⟨.nil, rfl⟩
  | stop f signs =>
    obtain ⟨w₁, -, h⟩ := andThen_eq_ok h
    cases h
  | leaf i token rest ih =>
    obtain ⟨w₁, -, h⟩ := andThen_eq_ok h
    obtain ⟨w₂, -, h⟩ := andThen_eq_ok h
    obtain ⟨F, rfl⟩ := ih h
    exact ⟨.leaf i token F, rfl⟩
  | node p below rest ihb ihr =>
    obtain ⟨w₁, -, h⟩ := andThen_eq_ok h
    obtain ⟨w₂, -, h⟩ := andThen_eq_ok h
    obtain ⟨w₃, hdown, h⟩ := andThen_eq_ok h
    obtain ⟨w₄, -, hnext⟩ := andThen_eq_ok h
    obtain ⟨B, rfl⟩ := ihb hdown
    obtain ⟨F, rfl⟩ := ihr hnext
    exact ⟨.node p B F, rfl⟩

end Course

namespace Machine

variable {m : Machine α} {last : Lookahead}

/-! ## Tokens in a history -/

def countTaken (history : List (Event α)) : Nat := history.countP (· matches .took _)

theorem countTaken_cons_took (id : Nat) (history : List (Event α)) :
    countTaken (.took id :: history) = countTaken history + 1 :=
  List.countP_cons_of_pos rfl

theorem countTaken_cons_expanded (id index line : Nat) (history : List (Event α)) :
    countTaken (.expanded id index line :: history) = countTaken history :=
  List.countP_cons_of_neg (by simp)

theorem countTaken_perform (action : α) (id : Nat) (c : Config α) :
    countTaken (m.perform action id c).2.history = countTaken c.history := by
  rw [perform]
  cases m.semantics action id with
  | none => rfl
  | some effect => exact List.countP_cons_of_neg (by simp)

theorem countTaken_performAll (due : List (α × Nat)) (c : Config α) :
    countTaken (m.performAll due c).2.history = countTaken c.history := by
  induction due generalizing c with
  | nil => rfl
  | cons head due ih =>
    obtain ⟨action, id⟩ := head
    have hfirst := countTaken_perform (m := m) action id c
    rw [performAll]
    revert hfirst
    rcases m.perform action id c with ⟨f | _, c₁⟩
    · exact fun hfirst => hfirst
    · exact fun hfirst => (ih c₁).trans hfirst

/-- Due actions do what their effect says, and no token is taken. -/
theorem performAll_taken (due : List (α × Nat)) (c : Config α) :
    ∃ history, countTaken history = countTaken c.history ∧
      m.performAll due c = ((m.semantics.all due c.workspace).1,
        ⟨c.stack, (m.semantics.all due c.workspace).2, history⟩) := by
  obtain ⟨history, h⟩ := performAll_eq (m := m) due c
  refine ⟨history, ?_, h⟩
  have htaken := countTaken_performAll (m := m) due c
  rwa [h] at htaken

/-! ## Steps of the loop -/

/-- What the first step of the loop leads to, the loop goes on from. -/
theorem Ends.cases {n : Nat} {rest : List Lookahead} {c c' : Config α} {v : Verdict}
    (h : m.Ends last n rest c v c') :
    match m.step (rest.headD last) c with
    | .ended v₁ c₁ => v = v₁ ∧ c' = c₁
    | .moved c₁ => ∃ k < n, m.Ends last k rest c₁ v c'
    | .taken c₁ => ∃ current after, rest = current :: after ∧
        ∃ k < n, m.Ends last k after c₁ v c' := by
  cases h with
  | ended hs =>
    rw [hs]
    exact ⟨rfl, rfl⟩
  | moved hs h =>
    simp only [hs]
    exact ⟨_, Nat.lt_succ_self _, h⟩
  | taken hs h =>
    simp only [List.headD_cons, hs]
    exact ⟨_, _, rfl, _, Nat.lt_succ_self _, h⟩

/-- An effect by which `count` tokens are taken either fails, and the loop ends with it, or the loop
is `next` at what it leaves. -/
def GoesOn (v : Verdict) (c' : Config α) (count : Nat) (next : Workspace → List (Event α) → Prop) :
    Except Failure Unit × Workspace → Prop
  | (.ok (), w) => ∃ history, countTaken history = count ∧ next w history
  | (.error f, w) => v = .rejected f ∧ c'.workspace = w ∧ countTaken c'.history = count

/-- The loop goes on with this stack, in fewer than `bound` steps. -/
def Resumes (m : Machine α) (last : Lookahead) (v : Verdict) (c' : Config α) (bound : Nat)
    (rest : List Lookahead) (stack : List (Frame α)) (w : Workspace) (history : List (Event α)) :
    Prop :=
  ∃ k < bound, m.Ends last k rest ⟨stack, w, history⟩ v c'

variable {v : Verdict} {c' : Config α} {rest : List Lookahead} {stack : List (Frame α)}
  {w : Workspace} {history : List (Event α)} {n : Nat}

/-- Actions that are due run first. -/
theorem Ends.of_prepend (hstack : stack ≠ []) {due : List (α × Nat)}
    (h : m.Ends last n rest ⟨prepend due stack, w, history⟩ v c') :
    GoesOn v c' (countTaken history) (m.Resumes last v c' (n + 1) rest stack)
      (m.semantics.all due w) := by
  cases stack with
  | nil => exact absurd rfl hstack
  | cons frame stack =>
    obtain ⟨history₁, htaken, hdue⟩ := performAll_taken (m := m) due ⟨stack, w, history⟩
    simp only at hdue htaken
    revert hdue
    generalize m.semantics.all due w = r
    rcases r with ⟨f | _, w₁⟩
    · intro hdue
      have hstep := h.cases
      simp only [prepend, step, performAll_append, hdue] at hstep
      obtain ⟨rfl, rfl⟩ := hstep
      exact ⟨rfl, rfl, htaken⟩
    · intro hdue
      refine ⟨history₁, htaken, n, Nat.lt_succ_self n, h.of_step_eq fun current => ?_⟩
      rw [prepend, step, step, performAll_append, hdue]

/-- A terminal takes the token, or the loop ends there. -/
theorem Ends.of_terminal {id i : Nat} (hsign : w.tree.sign? id = some (.terminal i))
    (hid : id ≠ sentinel) (h : m.Ends last n rest ⟨⟨[], id⟩ :: stack, w, history⟩ v c') :
    (∃ current after, rest = current :: after ∧ current.sign = some (.terminal i) ∧ ∃ k < n,
      m.Ends last k after (take current id ⟨stack, w, history⟩) v c') ∨
    v = .rejected (rest.headD last).failure ∧ c' = ⟨stack, w, history⟩ := by
  have hsign' : (w.tree.node? id).map Node.sign = some (.terminal i) := hsign
  have hstep := h.cases
  simp only [step, performAll, visit, hsign', if_neg hid] at hstep
  by_cases hcurrent : (rest.headD last).sign = some (.terminal i)
  · simp only [if_pos hcurrent] at hstep
    obtain ⟨current, after, rfl, k, hk, hends⟩ := hstep
    exact .inl ⟨current, after, rfl, hcurrent, k, hk, hends⟩
  · simp only [if_neg hcurrent] at hstep
    exact .inr hstep

/-- A non-terminal is expanded by one of its productions, or the loop ends there. -/
theorem Ends.of_nonTerminal (ht : m.table.Fits m.grammar) {id nt : Nat}
    (hsign : w.tree.sign? id = some (.nonTerminal nt))
    (h : m.Ends last n rest ⟨⟨[], id⟩ :: stack, w, history⟩ v c') :
    (∃ p ∈ m.grammar.productions, p.left = nt ∧ p.slots.length = p.right.length ∧
      GoesOn v c' (countTaken history) (fun w₁ => m.Resumes last v c' n rest
        (frames w₁.tree.size p.slots ++ Machine.below p id stack)
        ⟨w₁.tree.attachAll id p.right, w₁.pool⟩) (m.semantics.at p.opening id w)) ∨
    ∃ f, m.grammar.Refuses f ∧ v = .rejected f ∧ c' = ⟨stack, w, history⟩ := by
  have hsign' : (w.tree.node? id).map Node.sign = some (.nonTerminal nt) := hsign
  have hstep := h.cases
  simp only [step, performAll, visit, hsign'] at hstep
  cases hi : (rest.headD last).sign.bind (m.table.get? nt) with
  | none =>
    simp only [hi] at hstep
    exact .inr ⟨_, .unexpected _ _, hstep⟩
  | some i =>
    obtain ⟨x, -, hx⟩ := Option.bind_eq_some_iff.mp hi
    obtain ⟨p, hp, hleft⟩ := ht.chosen nt x i hx
    have hmem := List.mem_of_getElem? hp
    simp only [hi, expand, hp] at hstep
    by_cases hlength : p.slots.length = p.right.length
    · refine .inl ⟨p, hmem, hleft, hlength, ?_⟩
      simp only [if_pos hlength] at hstep
      obtain ⟨history₁, htaken, hdue⟩ := performAll_taken (m := m)
        (p.opening.toList.map fun action => (action, id))
        ⟨stack, w, .expanded id i (rest.headD last).line :: history⟩
      rw [all_toList] at hdue
      simp only [countTaken_cons_expanded] at hdue htaken
      revert hstep hdue
      generalize m.semantics.at p.opening id w = r
      rcases r with ⟨f | _, w₁⟩
      · intro hstep hdue
        simp only [hdue] at hstep
        obtain ⟨rfl, rfl⟩ := hstep
        exact ⟨rfl, rfl, htaken⟩
      · intro hstep hdue
        simp only [hdue, branch] at hstep
        obtain ⟨k, hk, hends⟩ := hstep
        exact ⟨history₁, htaken, k, hk, hends⟩
    · simp only [if_neg hlength] at hstep
      exact .inr ⟨_, .arity hmem hlength, hstep⟩

/-! ## Courses of the loop -/

/-- The nodes from `id` on, none of them the end mark's, have the signs `u` and are not visited
yet. -/
structure Ahead (m : Machine α) (w : Workspace) (id : Nat) (slots : List (Option α))
    (u : List Sign) : Prop where
  slots : slots.length = u.length
  fits : m.grammar.Fits u
  stands : w.tree.Stands id u
  inner : ∀ j < u.length, id + j ≠ sentinel
  size : sentinel < w.tree.size

theorem Ahead.later {w' : Workspace} {id : Nat} {slot : Option α} {slots : List (Option α)}
    {s : Sign} {u : List Sign} (h : m.Ahead w id (slot :: slots) (s :: u))
    (hw : w.tree.Extends w'.tree) : m.Ahead w' (id + 1) slots u where
  slots := Nat.succ.inj h.slots
  fits := (Grammar.fits_cons.mp h.fits).2
  stands := h.stands.tail.extends hw
  inner j hj he := h.inner (j + 1) (Nat.succ_lt_succ hj) (by omega)
  size := h.size.trans_le hw.size_le

theorem Ahead.children (hg : m.grammar.Valid) (hsize : sentinel < w.tree.size) {p : Production α}
    (hp : p ∈ m.grammar.productions) (hlength : p.slots.length = p.right.length) (id : Nat) :
    m.Ahead ⟨w.tree.attachAll id p.right, w.pool⟩ w.tree.size p.slots p.right where
  slots := hlength
  fits := hg.right_fits p hp
  stands := w.tree.stands_attachAll id p.right
  inner j _ he := by omega
  size := by
    rw [Tree.size_attachAll]
    omega

/-- From the frames of the nodes from `id` on, the loop follows a course with the signs `u`, and then
goes on with the stack below. -/
def Follows (m : Machine α) (last : Lookahead) (v : Verdict) (c' : Config α) (bound : Nat)
    (u : List Sign) (id : Nat) (slots : List (Option α)) (stack : List (Frame α)) (w : Workspace)
    (history : List (Event α)) (tokens : List Token) : Prop :=
  ∃ (T : Course α) (after : List Token), T.roots = u ∧ T.Grows m.grammar ∧
    tokens = T.tokens ++ after ∧
    GoesOn v c' (countTaken history + T.tokens.length)
      (m.Resumes last v c' bound (after.map (Lookahead.ofToken m.grammar)) stack)
      (T.walk m.semantics id slots w)

/-- The loop follows a course from every place that it reaches in fewer than `n` steps. -/
def FollowsBefore (m : Machine α) (last : Lookahead) (v : Verdict) (c' : Config α) (n : Nat) :
    Prop :=
  ∀ k < n, ∀ {u : List Sign} {id : Nat} {slots : List (Option α)} {stack : List (Frame α)}
    {w : Workspace} {history : List (Event α)} {tokens : List Token},
    m.Ends last k (tokens.map (Lookahead.ofToken m.grammar)) ⟨frames id slots ++ stack, w, history⟩
      v c' →
    m.Ahead w id slots u → stack ≠ [] →
      m.Follows last v c' (k + 1) u id slots stack w history tokens

theorem GoesOn.mono {count : Nat} {next next' : Workspace → List (Event α) → Prop}
    {r : Except Failure Unit × Workspace} (h : GoesOn v c' count next r)
    (hnext : ∀ w history, next w history → next' w history) : GoesOn v c' count next' r := by
  rcases r with ⟨_ | _, w⟩
  · exact h
  · obtain ⟨history, hcount, hn⟩ := h
    exact ⟨history, hcount, hnext w history hn⟩

theorem Follows.mono {bound bound' : Nat} {u : List Sign} {id : Nat} {slots : List (Option α)}
    {tokens : List Token} (h : m.Follows last v c' bound u id slots stack w history tokens)
    (hle : bound ≤ bound') : m.Follows last v c' bound' u id slots stack w history tokens := by
  obtain ⟨T, after, hroots, hT, htokens, hgoes⟩ := h
  refine ⟨T, after, hroots, hT, htokens, hgoes.mono fun w history => ?_⟩
  rintro ⟨k, hk, hends⟩
  exact ⟨k, hk.trans_le hle, hends⟩

section Follows

variable {s : Sign} {u : List Sign} {id : Nat} {slot : Option α} {slots : List (Option α)}
  {w₁ : Workspace} {history₁ : List (Event α)} {tokens : List Token}

/-- The loop ends at a node whose slot was done. -/
theorem follows_of_refuses {f : Failure} (hf : m.grammar.Refuses f)
    (hslot : m.semantics.at slot id w = (.ok (), w₁))
    (htaken : countTaken history₁ = countTaken history) (hv : v = .rejected f)
    (hc : c' = ⟨stack, w₁, history₁⟩) {bound : Nat} {stack' : List (Frame α)} :
    m.Follows last v c' bound (s :: u) id (slot :: slots) stack' w history tokens := by
  refine ⟨.stop f (s :: u), tokens, rfl, hf, rfl, ?_⟩
  simp only [Course.walk, List.head?_cons, Option.join_some, Effect.andThen, hslot]
  subst hc
  exact ⟨hv, rfl, htaken⟩

theorem follows_terminal {i : Nat} (hm : m.semantics.Local) (hbefore : m.FollowsBefore last v c' n)
    (hslot : m.semantics.at slot id w = (.ok (), w₁))
    (htaken : countTaken history₁ = countTaken history)
    (ha : m.Ahead w id (slot :: slots) (.terminal i :: u)) (hstack : stack ≠ [])
    (h : m.Ends last n (tokens.map (Lookahead.ofToken m.grammar))
      ⟨⟨[], id⟩ :: (frames (id + 1) slots ++ stack), w₁, history₁⟩ v c') :
    m.Follows last v c' n (.terminal i :: u) id (slot :: slots) stack w history tokens := by
  have ht₁ := (hm.keeps_at slot id).extends hslot
  have hsign := (ha.stands.extends ht₁).head
  rcases h.of_terminal hsign (ha.inner 0 (Nat.succ_pos _)) with
    ⟨current, rest, hrest, hcurrent, k, hk, hends⟩ | ⟨hv, hc⟩
  · obtain ⟨token, tokens, rfl, rfl, rfl⟩ := List.map_eq_cons_iff.mp hrest
    have htake : Effect.take token id w₁ = (.ok (), (Effect.take token id w₁).2) := rfl
    have ht := ht₁.trans ((Effect.keeps_take token id).extends htake)
    obtain ⟨T, after, hroots, hT, rfl, hgoes⟩ := (hbefore k hk hends (ha.later ht) hstack).mono hk
    refine ⟨.leaf i token T, after, congrArg _ hroots, ⟨hcurrent, hT⟩, rfl, ?_⟩
    rw [Machine.countTaken_cons_took, htaken, Nat.add_assoc, Nat.add_comm 1] at hgoes
    rw [Course.walk, List.head?_cons, Option.join_some, Effect.andThen_of_ok hslot,
      Effect.andThen_of_ok htake]
    exact hgoes
  · exact follows_of_refuses (.unexpected _ _) hslot htaken hv hc

theorem follows_nonTerminal {nt : Nat} (hm : m.semantics.Local) (hg : m.grammar.Valid)
    (ht : m.table.Fits m.grammar) (hbefore : m.FollowsBefore last v c' n)
    (hslot : m.semantics.at slot id w = (.ok (), w₁))
    (htaken : countTaken history₁ = countTaken history)
    (ha : m.Ahead w id (slot :: slots) (.nonTerminal nt :: u)) (hstack : stack ≠ [])
    (h : m.Ends last n (tokens.map (Lookahead.ofToken m.grammar))
      ⟨⟨[], id⟩ :: (frames (id + 1) slots ++ stack), w₁, history₁⟩ v c') :
    m.Follows last v c' n (.nonTerminal nt :: u) id (slot :: slots) stack w history tokens := by
  have ht₁ := (hm.keeps_at slot id).extends hslot
  have hrefuses : m.grammar.Refuses (.unexpected "" 0) := .unexpected _ _
  rcases h.of_nonTerminal ht (ha.stands.extends ht₁).head with
    ⟨p, hp, rfl, hlength, hopening⟩ | ⟨f, hf, hv, hc⟩
  · rcases hw₂ : m.semantics.at p.opening id w₁ with ⟨f | _, w₂⟩
    · rw [hw₂, htaken] at hopening
      -- Where the run fails at the node, stops stand for the signs below it and behind it.
      refine ⟨.node p (.stop _ p.right) (.stop _ u), tokens, rfl,
        ⟨⟨hp, hlength, rfl, hrefuses⟩, hrefuses⟩, rfl, ?_⟩
      rw [Course.walk, List.head?_cons, Option.join_some, Effect.andThen_of_ok hslot,
        Effect.andThen_of_error hw₂]
      exact hopening
    · rw [hw₂] at hopening
      obtain ⟨history₂, htaken₂, n₂, hn₂, h₂⟩ := hopening
      have ht₂ := ht₁.trans ((hm.keeps_at p.opening id).extends hw₂)
      have hmore : frames (id + 1) slots ++ stack ≠ [] := by simp [hstack]
      have hbelow : Machine.below p id (frames (id + 1) slots ++ stack) ≠ [] := by
        rw [below_eq]
        exact fun he => hmore (prepend_eq_nil.mp he)
      obtain ⟨B, tokens', hroots, hB, rfl, hdown⟩ := hbefore n₂ hn₂ h₂
        (.children hg (ha.size.trans_le ht₂.size_le) hp hlength id) hbelow
      rw [htaken₂, htaken] at hdown
      change GoesOn v c' _ _
        (Effect.branch id p.right (fun first => B.walk m.semantics first p.slots) w₂) at hdown
      rcases hw₃ : Effect.branch id p.right (fun first => B.walk m.semantics first p.slots) w₂ with
        ⟨f | _, w₃⟩
      · rw [hw₃] at hdown
        refine ⟨.node p B (.stop _ u), tokens', rfl, ⟨⟨hp, hlength, hroots, hB⟩, hrefuses⟩,
          by rw [Course.tokens, Course.tokens, List.append_nil], ?_⟩
        rw [Course.tokens, Course.tokens, List.append_nil, Course.walk, List.head?_cons,
          Option.join_some, Effect.andThen_of_ok hslot, Effect.andThen_of_ok hw₂,
          Effect.andThen_of_error hw₃]
        exact hdown
      · rw [hw₃] at hdown
        obtain ⟨history₃, htaken₃, n₃, hn₃, h₃⟩ := hdown
        have hclosing := Ends.of_prepend hmore (below_eq p id _ ▸ h₃)
        rw [all_toList, htaken₃] at hclosing
        rcases hw₄ : m.semantics.at p.closing id w₃ with ⟨f | _, w₄⟩
        · rw [hw₄] at hclosing
          refine ⟨.node p B (.stop _ u), tokens', rfl, ⟨⟨hp, hlength, hroots, hB⟩, hrefuses⟩,
            by rw [Course.tokens, Course.tokens, List.append_nil], ?_⟩
          rw [Course.tokens, Course.tokens, List.append_nil, Course.walk, List.head?_cons,
            Option.join_some, Effect.andThen_of_ok hslot, Effect.andThen_of_ok hw₂,
            Effect.andThen_of_ok hw₃, Effect.andThen_of_error hw₄]
          exact hclosing
        · rw [hw₄] at hclosing
          obtain ⟨history₄, htaken₄, n₄, hn₄, h₄⟩ := hclosing
          have hlt : n₄ < n := by omega
          have hbranch : w₂.tree.Extends w₃.tree := (w₂.tree.extends_attachAll id p.right).trans
            ((B.keeps_walk hm _ _).extends hw₃)
          have ht₄ := (ht₂.trans hbranch).trans ((hm.keeps_at p.closing id).extends hw₄)
          obtain ⟨R, after, hroots', hR, rfl, hgoes⟩ :=
            (hbefore n₄ hlt h₄ (ha.later ht₄) hstack).mono hlt
          refine ⟨.node p B R, after, congrArg _ hroots', ⟨⟨hp, hlength, hroots, hB⟩, hR⟩,
            (List.append_assoc ..).symm, ?_⟩
          rw [htaken₄, Nat.add_assoc, ← List.length_append] at hgoes
          rw [Course.tokens, Course.walk, List.head?_cons, Option.join_some, List.tail_cons,
            Effect.andThen_of_ok hslot, Effect.andThen_of_ok hw₂, Effect.andThen_of_ok hw₃,
            Effect.andThen_of_ok hw₄]
          exact hgoes
  · exact follows_of_refuses hf hslot htaken hv hc

end Follows

/-- However the table chooses, the loop follows a course from the frames of any signs. -/
theorem followsBefore (hm : m.semantics.Local) (hg : m.grammar.Valid)
    (ht : m.table.Fits m.grammar) (n : Nat) : m.FollowsBefore last v c' n := by
  induction n with
  | zero => exact fun k hk => absurd hk (Nat.not_lt_zero k)
  | succ n ih =>
    intro k hk u id slots stack w history tokens h ha hstack
    cases u with
    | nil =>
      obtain rfl := List.length_eq_zero_iff.mp ha.slots
      exact ⟨.nil, tokens, rfl, trivial, rfl, history, rfl, k, Nat.lt_succ_self k, h⟩
    | cons s u =>
      obtain ⟨slot, slots, rfl⟩ := List.exists_cons_of_length_eq_add_one ha.slots
      rw [frames_cons] at h
      have hslot := Ends.of_prepend (List.cons_ne_nil _ _) h
      rw [all_toList] at hslot
      rcases hw₁ : m.semantics.at slot id w with ⟨f | _, w₁⟩
      · refine ⟨.stop (.unexpected "" 0) (s :: u), tokens, rfl, .unexpected _ _, rfl, ?_⟩
        rw [hw₁] at hslot
        rw [Course.walk, List.head?_cons, Option.join_some, Effect.andThen_of_error hw₁]
        exact hslot
      · rw [hw₁] at hslot
        obtain ⟨history₁, htaken, k₁, hk₁, h₁⟩ := hslot
        have hbefore : m.FollowsBefore last v c' k₁ := fun j hj => ih j (by omega)
        rcases ha.fits.terminal_or_nonTerminal List.mem_cons_self with ⟨i, rfl, -⟩ | ⟨nt, rfl, -⟩
        · exact (follows_terminal hm hbefore hw₁ htaken ha hstack h₁).mono hk₁.le
        · exact (follows_nonTerminal hm hg ht hbefore hw₁ htaken ha hstack h₁).mono hk₁.le

/-- From the frames of some signs on, the loop ends with the failure of a course, or it has walked
over the course and goes on with the stack below. -/
theorem Ends.exists_course (hm : m.semantics.Local) (hg : m.grammar.Valid)
    (ht : m.table.Fits m.grammar) {u : List Sign} {id : Nat} {slots : List (Option α)}
    {tokens : List Token} (ha : m.Ahead w id slots u) (hstack : stack ≠ [])
    (h : m.Ends last n (tokens.map (Lookahead.ofToken m.grammar)) ⟨frames id slots ++ stack, w,
      history⟩ v c') : m.Follows last v c' (n + 1) u id slots stack w history tokens :=
  followsBefore hm hg ht (n + 1) n (Nat.lt_succ_self n) h ha hstack

/-! ## Courses of whole inputs -/

/-- What the loop comes to with some input: the end of a course of all tokens, a token that was not
taken, or the failure of the course. -/
inductive Closes (after : List Token) : Except Failure Unit → Verdict → Prop
  | accepted (h : after = []) : Closes after (.ok ()) .accepted
  | unexpected {token : Token} {tokens : List Token} (h : after = token :: tokens) :
      Closes after (.ok ()) (.rejected (.unexpected token.text token.line))
  | failed (failure : Failure) : Closes after (.error failure) (.rejected failure)

theorem Ends.of_sentinel {tokens : List Token} (hlast : last.sign = some .pound)
    (hsign : w.tree.sign? sentinel = some .pound)
    (h : m.Ends last n (tokens.map (Lookahead.ofToken m.grammar)) ⟨[⟨[], sentinel⟩], w, history⟩
      v c') : Closes tokens (.ok ()) v ∧ c' = ⟨[], w, history⟩ := by
  have hsign' : (w.tree.node? sentinel).map Node.sign = some .pound := hsign
  have hstep := h.cases
  cases tokens with
  | nil =>
    simp only [List.map_nil, List.headD_nil, step, performAll, visit, hsign', hlast,
      if_true] at hstep
    exact ⟨hstep.1 ▸ .accepted rfl, hstep.2⟩
  | cons token tokens =>
    have hne : (Lookahead.ofToken m.grammar token).sign ≠ some .pound := by
      simp [Lookahead.ofToken, Grammar.terminal]
    simp only [List.map_cons, List.headD_cons, step, performAll, visit, hsign', hne,
      if_false] at hstep
    exact ⟨hstep.1 ▸ .unexpected rfl, hstep.2⟩

/-- What the loop does with a whole input is the walk over a course with the start symbol. -/
theorem Ends.exists_course_of_start (hm : m.semantics.Local) (hg : m.grammar.Valid)
    (ht : m.table.Fits m.grammar) {tokens : List Token} {pool : Pool}
    (h : m.Ends (Lookahead.atEnd tokens) n (tokens.map (Lookahead.ofToken m.grammar))
      (m.start pool) v c') :
    ∃ (T : Course α) (after : List Token) (r : Except Failure Unit),
      T.roots = [.nonTerminal m.grammar.start] ∧ T.Grows m.grammar ∧ tokens = T.tokens ++ after ∧
        T.walk m.semantics Tree.root [none] (m.start pool).workspace = (r, c'.workspace) ∧
          Closes after r v ∧ countTaken c'.history = T.tokens.length := by
  have ha : m.Ahead (m.start pool).workspace Tree.root [none] [.nonTerminal m.grammar.start] :=
    { slots := rfl
      fits := hg.fits_start
      stands := by
        rintro (_ | j) hj
        · exact ⟨Nat.succ_pos _, rfl⟩
        · simp at hj
      inner := by
        rintro (_ | j) hj
        · decide
        · simp at hj
      size := Nat.one_lt_two }
  obtain ⟨T, after, hroots, hT, htokens, hgoes⟩ :=
    Ends.exists_course hm hg ht ha (List.cons_ne_nil ⟨[], sentinel⟩ []) h
  rcases hwalk : T.walk m.semantics Tree.root [none] (m.start pool).workspace with ⟨f | _, w⟩
  · rw [hwalk] at hgoes
    obtain ⟨rfl, rfl, htaken⟩ := hgoes
    exact ⟨T, after, .error f, hroots, hT, htokens, hwalk, .failed f,
      htaken.trans (Nat.zero_add _)⟩
  · rw [hwalk] at hgoes
    obtain ⟨history, htaken, k, -, hends⟩ := hgoes
    have hsign : w.tree.sign? sentinel = some .pound :=
      ((T.keeps_walk hm Tree.root [none]).extends hwalk).sign sentinel Nat.one_lt_two
    obtain ⟨hcloses, rfl⟩ := hends.of_sentinel rfl hsign
    exact ⟨T, after, .ok (), hroots, hT, htokens, hwalk, hcloses, htaken.trans (Nat.zero_add _)⟩

end Machine

end PredictiveParsing
