import PredictiveParsing.Proofs.Parse.Forest
import PredictiveParsing.Proofs.Parse.Recognition

/-!
# A run is a walk over the forest

`walk` runs the actions of a forest recursively: at each node the action of its slot, the opening
action, the walk over the children, which are attached then, and the closing action. The machine
instead puts the children onto its stack and lets a closing action wait for the node below them.
`Leads.walk` shows that both come to the same when the table predicts the forest: the machine goes
from the frames of the forest to what lies below them, or is rejected where the walk fails.
-/

namespace PredictiveParsing

variable {α : Type}

/-! ## Effects -/

namespace Effect

def done : Effect := fun w => (.ok (), w)

/-- One effect after the other, unless the first fails. -/
def andThen (e e' : Effect) : Effect := fun w =>
  match e w with
  | (.ok (), w) => e' w
  | (.error f, w) => (.error f, w)

theorem andThen_of_ok {e e' : Effect} {w w₁ : Workspace} (h : e w = (.ok (), w₁)) :
    e.andThen e' w = e' w₁ := by
  rw [andThen, h]

theorem andThen_of_error {e e' : Effect} {f : Failure} {w w₁ : Workspace}
    (h : e w = (.error f, w₁)) : e.andThen e' w = (.error f, w₁) := by
  rw [andThen, h]

/-- The node takes the text and line of a token. -/
def take (token : Token) (id : Nat) : Effect := fun w =>
  let attrs := { w.tree.attrs id with lexical := some token.text, line := some token.line }
  (.ok (), ⟨w.tree.setAttrs id attrs, w.pool⟩)

/-- The node gets children; the first of them is handed on. -/
def branch (id : Nat) (signs : List Sign) (next : Nat → Effect) : Effect := fun w =>
  next w.tree.size ⟨w.tree.attachAll id signs, w.pool⟩

end Effect

/-- The effect of an action at a node, if there are any. -/
def Semantics.at (s : Semantics α) (action : Option α) (id : Nat) : Effect :=
  (action.bind fun action => s action id).getD Effect.done

/-- The effects of some actions, each at its own node. -/
def Semantics.all (s : Semantics α) : List (α × Nat) → Effect
  | [] => Effect.done
  | (action, id) :: due => (s.at (some action) id).andThen (Semantics.all s due)

namespace Forest

/-- Walk over a forest whose roots are the nodes from `id` on. -/
def walk (s : Semantics α) : Forest α → Nat → List (Option α) → Effect
  | nil, _, _ => Effect.done
  | leaf _ token rest, id, slots =>
    (s.at slots.head?.join id).andThen
      ((Effect.take token id).andThen (walk s rest (id + 1) slots.tail))
  | node p below rest, id, slots =>
    (s.at slots.head?.join id).andThen <|
      (s.at p.opening id).andThen <|
        (Effect.branch id p.right fun first => walk s below first p.slots).andThen <|
          (s.at p.closing id).andThen (walk s rest (id + 1) slots.tail)

end Forest

/-- What comes of an effect that ended so, when `next` comes of every success. -/
def After (r : Except Failure Unit × Workspace) (next : Workspace → Verdict × Workspace → Prop)
    (o : Verdict × Workspace) : Prop :=
  match r with
  | (.ok (), w) => next w o
  | (.error f, w) => o = (.rejected f, w)

theorem After.andThen {e e' : Effect} {w : Workspace}
    {next : Workspace → Verdict × Workspace → Prop} :
    After (e.andThen e' w) next = After (e w) fun w => After (e' w) next := by
  rw [Effect.andThen]
  rcases e w with ⟨_ | _, w'⟩
  · rfl
  · rfl

theorem After.mono {r : Except Failure Unit × Workspace}
    {next next' : Workspace → Verdict × Workspace → Prop} {o : Verdict × Workspace}
    (h : After r next o) (hnext : ∀ w, r = (.ok (), w) → next w o → next' w o) :
    After r next' o := by
  rcases r with ⟨_ | _, w⟩
  · exact h
  · exact hnext w rfl h

/-! ## What effects keep -/

/-- A later state of a tree: nodes are added, and the signs stay. -/
structure Tree.Extends (t t' : Tree) : Prop where
  size_le : t.size ≤ t'.size
  sign : ∀ id < t.size, t'.sign? id = t.sign? id

theorem Tree.Extends.refl (t : Tree) : t.Extends t := ⟨Nat.le_refl _, fun _ _ => rfl⟩

theorem Tree.Extends.trans {t t' t'' : Tree} (h : t.Extends t') (h' : t'.Extends t'') :
    t.Extends t'' :=
  ⟨h.size_le.trans h'.size_le, fun id hid =>
    (h'.sign id (hid.trans_le h.size_le)).trans (h.sign id hid)⟩

theorem Tree.extends_setAttrs (t : Tree) (id : Nat) (attrs : Attributes) :
    t.Extends (t.setAttrs id attrs) :=
  ⟨by simp, fun id' _ => sign?_setAttrs ..⟩

theorem Tree.extends_attachAll (t : Tree) (id : Nat) (signs : List Sign) :
    t.Extends (t.attachAll id signs) :=
  ⟨by simp, fun id' hid => by rw [sign?_attachAll, if_pos hid]⟩

def Effect.Keeps (e : Effect) : Prop := ∀ w : Workspace, w.tree.Extends (e w).2.tree

theorem Effect.Keeps.extends {e : Effect} (he : e.Keeps) {r : Except Failure Unit}
    {w w' : Workspace} (h : e w = (r, w')) : w.tree.Extends w'.tree := by
  simpa [h] using he w

theorem Effect.keeps_done : Effect.done.Keeps := fun w => .refl w.tree

theorem Effect.Keeps.andThen {e e' : Effect} (h : e.Keeps) (h' : e'.Keeps) :
    (e.andThen e').Keeps := by
  intro w
  have he := h w
  rw [Effect.andThen]
  revert he
  rcases e w with ⟨_ | _, w'⟩
  · exact id
  · exact fun he => he.trans (h' w')

theorem Effect.keeps_take (token : Token) (id : Nat) : (Effect.take token id).Keeps :=
  fun w => w.tree.extends_setAttrs id _

theorem Effect.Keeps.branch {id : Nat} {signs : List Sign} {next : Nat → Effect}
    (h : ∀ first, (next first).Keeps) : (Effect.branch id signs next).Keeps :=
  fun w => (w.tree.extends_attachAll id signs).trans (h w.tree.size ⟨_, w.pool⟩)

theorem Semantics.Local.keeps_at {s : Semantics α} (hs : s.Local) (action : Option α) (id : Nat) :
    (s.at action id).Keeps := by
  rw [Semantics.at]
  cases action with
  | none => exact Effect.keeps_done
  | some action =>
    rw [Option.bind_some]
    cases he : s action id with
    | none => exact Effect.keeps_done
    | some effect =>
      intro w
      obtain ⟨attrs, ht⟩ := hs action id effect he w
      rw [Option.getD_some, ht]
      exact w.tree.extends_setAttrs id attrs

theorem Forest.keeps_walk {s : Semantics α} (hs : s.Local) (F : Forest α) (id : Nat)
    (slots : List (Option α)) : (F.walk s id slots).Keeps := by
  induction F generalizing id slots with
  | nil => exact Effect.keeps_done
  | leaf i token rest ih =>
    exact (hs.keeps_at _ id).andThen ((Effect.keeps_take token id).andThen (ih _ _))
  | node p below rest ihb ihr =>
    refine (hs.keeps_at _ id).andThen ((hs.keeps_at _ id).andThen ?_)
    exact (Effect.Keeps.branch fun first => ihb first _).andThen
      ((hs.keeps_at _ id).andThen (ihr _ _))

/-- The signs stand at the nodes from `id` on. -/
def Tree.Stands (t : Tree) (id : Nat) (u : List Sign) : Prop :=
  ∀ j < u.length, id + j < t.size ∧ t.sign? (id + j) = u[j]?

theorem Tree.Stands.extends {t t' : Tree} {id : Nat} {u : List Sign} (h : t.Stands id u)
    (ht : t.Extends t') : t'.Stands id u := fun j hj =>
  ⟨(h j hj).1.trans_le ht.size_le, (ht.sign _ (h j hj).1).trans (h j hj).2⟩

theorem Tree.Stands.head {t : Tree} {id : Nat} {s : Sign} {u : List Sign}
    (h : t.Stands id (s :: u)) :
    t.sign? id = some s := (h 0 (Nat.succ_pos _)).2

theorem Tree.Stands.tail {t : Tree} {id : Nat} {s : Sign} {u : List Sign}
    (h : t.Stands id (s :: u)) :
    t.Stands (id + 1) u := by
  intro j hj
  have hsucc := h (j + 1) (Nat.succ_lt_succ hj)
  rwa [List.getElem?_cons_succ, Nat.add_comm j 1, ← Nat.add_assoc] at hsucc

theorem Tree.stands_attachAll (t : Tree) (id : Nat) (u : List Sign) :
    (t.attachAll id u).Stands t.size u := by
  intro j hj
  refine ⟨by rw [size_attachAll]; omega, ?_⟩
  rw [sign?_attachAll, if_neg (by omega), Nat.add_sub_cancel_left]

namespace Machine

variable {m : Machine α} {last : Lookahead}

/-! ## Waiting actions -/

theorem perform_eq (action : α) (id : Nat) (c : Config α) :
    ∃ history, m.perform action id c =
      ((m.semantics.at (some action) id c.workspace).1,
        ⟨c.stack, (m.semantics.at (some action) id c.workspace).2, history⟩) := by
  rw [perform, Semantics.at, Option.bind_some]
  cases m.semantics action id with
  | none => exact ⟨c.history, rfl⟩
  | some effect => exact ⟨_, rfl⟩

theorem performAll_eq (due : List (α × Nat)) (c : Config α) :
    ∃ history, m.performAll due c =
      ((m.semantics.all due c.workspace).1,
        ⟨c.stack, (m.semantics.all due c.workspace).2, history⟩) := by
  induction due generalizing c with
  | nil => exact ⟨c.history, rfl⟩
  | cons head due ih =>
    obtain ⟨action, id⟩ := head
    obtain ⟨history, hp⟩ := perform_eq (m := m) action id c
    rw [performAll, hp, Semantics.all, Effect.andThen]
    rcases m.semantics.at (some action) id c.workspace with ⟨f | _, w⟩
    · exact ⟨history, rfl⟩
    · exact ih ⟨c.stack, w, history⟩

theorem performAll_append (due due' : List (α × Nat)) (c : Config α) :
    m.performAll (due ++ due') c =
      match m.performAll due c with
      | (.ok (), c) => m.performAll due' c
      | (.error f, c) => (.error f, c) := by
  induction due generalizing c with
  | nil => rfl
  | cons head due ih =>
    obtain ⟨action, id⟩ := head
    rw [List.cons_append, performAll, performAll]
    rcases m.perform action id c with ⟨f | _, c'⟩
    · rfl
    · exact ih c'

/-- The stack with some actions due before everything on it. -/
def prepend (due : List (α × Nat)) : List (Frame α) → List (Frame α)
  | [] => []
  | frame :: stack => { frame with due := due ++ frame.due } :: stack

theorem prepend_eq_nil {due : List (α × Nat)} {stack : List (Frame α)} :
    prepend due stack = [] ↔ stack = [] := by
  cases stack <;> simp [prepend]

theorem below_eq (p : Production α) (id : Nat) (stack : List (Frame α)) :
    below p id stack = prepend (p.closing.toList.map fun action => (action, id)) stack := by
  rw [below]
  cases p.closing <;> cases stack <;> rfl

theorem frames_cons (id : Nat) (slot : Option α) (slots : List (Option α)) :
    frames id (slot :: slots) =
      prepend (slot.toList.map fun action => (action, id)) (⟨[], id⟩ :: frames (id + 1) slots) := by
  simp [frames, prepend]

theorem all_toList (s : Semantics α) (action : Option α) (id : Nat) (w : Workspace) :
    s.all (action.toList.map fun action => (action, id)) w = s.at action id w := by
  cases action with
  | none => rfl
  | some action =>
    simp only [Option.toList_some, List.map_cons, List.map_nil, Semantics.all, Effect.andThen,
      Effect.done]
    rcases s.at (some action) id w with ⟨_ | _, w'⟩
    · rfl
    · rfl

/-! ## What the loop comes to -/

/-- Whatever happened before, the loop ends with this verdict and workspace. -/
def Leads (m : Machine α) (last : Lookahead) (rest : List Lookahead) (stack : List (Frame α))
    (w : Workspace) (o : Verdict × Workspace) : Prop :=
  ∀ history, ∃ n c', m.Ends last n rest ⟨stack, w, history⟩ o.1 c' ∧ c'.workspace = o.2

theorem Ends.of_step_eq {n : Nat} {rest : List Lookahead} {c c₁ c' : Config α} {v : Verdict}
    (h : ∀ current, m.step current c = m.step current c₁) (h' : m.Ends last n rest c₁ v c') :
    m.Ends last n rest c v c' := by
  cases h' with
  | ended hs => exact .ended ((h _).trans hs)
  | moved hs h' => exact .moved ((h _).trans hs) h'
  | taken hs h' => exact .taken ((h _).trans hs) h'

/-- Actions that are due run before the rest. -/
theorem Leads.prepend {rest : List Lookahead} {stack : List (Frame α)} (hstack : stack ≠ [])
    {due : List (α × Nat)} {w : Workspace} {o : Verdict × Workspace}
    (h : After (m.semantics.all due w) (m.Leads last rest stack) o) :
    m.Leads last rest (prepend due stack) w o := by
  intro history
  cases stack with
  | nil => exact absurd rfl hstack
  | cons frame stack =>
    obtain ⟨history', hdue⟩ := performAll_eq (m := m) due ⟨stack, w, history⟩
    simp only at hdue
    revert h hdue
    generalize m.semantics.all due w = r
    rcases r with ⟨f | _, w'⟩
    · rintro rfl hdue
      refine ⟨1, ⟨stack, w', history'⟩, .ended ?_, rfl⟩
      rw [Machine.prepend, step, performAll_append, hdue]
    · intro h hdue
      obtain ⟨n, c', hends, hw⟩ := h history'
      refine ⟨n, c', hends.of_step_eq fun current => ?_, hw⟩
      rw [Machine.prepend, step, performAll_append, hdue, step]

theorem Leads.take {current : Lookahead} {token : Token} {rest : List Lookahead}
    {stack : List (Frame α)} {w : Workspace} {o : Verdict × Workspace} {id i : Nat}
    (hsign : w.tree.sign? id = some (.terminal i)) (hid : id ≠ sentinel)
    (hcurrent : current.sign = some (.terminal i)) (htext : current.text = token.text)
    (hline : current.line = token.line)
    (h : After (Effect.take token id w) (m.Leads last rest stack) o) :
    m.Leads last (current :: rest) (⟨[], id⟩ :: stack) w o := by
  intro history
  obtain ⟨n, c', hends, hw⟩ := h (.took id :: history)
  refine ⟨n + 1, c', .taken ?_ hends, hw⟩
  have hsign' : (w.tree.node? id).map Node.sign = some (.terminal i) := hsign
  simp only [step, performAll, visit, hsign', hcurrent, if_true, if_neg hid, Machine.take, htext,
    hline]

/-- A node is expanded as the table says. -/
theorem Leads.expand {rest : List Lookahead} {stack : List (Frame α)} {w : Workspace}
    {o : Verdict × Workspace} {id n i : Nat} (hsign : w.tree.sign? id = some (.nonTerminal n))
    (hi : (rest.headD last).sign.bind (m.table.get? n) = some i) {p : Production α}
    (hp : m.grammar.productions[i]? = some p) (hslots : p.slots.length = p.right.length)
    (h : After (m.semantics.at p.opening id w) (fun w => m.Leads last rest
      (frames w.tree.size p.slots ++ below p id stack) ⟨w.tree.attachAll id p.right, w.pool⟩) o) :
    m.Leads last rest (⟨[], id⟩ :: stack) w o := by
  intro history
  have hsign' : (w.tree.node? id).map Node.sign = some (.nonTerminal n) := hsign
  have hstep : m.step (rest.headD last) ⟨⟨[], id⟩ :: stack, w, history⟩ =
      m.expand (rest.headD last) id i ⟨stack, w, history⟩ := by
    simp only [step, performAll, visit, hsign', hi]
  obtain ⟨history', hdue⟩ := performAll_eq (m := m)
    (p.opening.toList.map fun action => (action, id))
    ⟨stack, w, .expanded id i (rest.headD last).line :: history⟩
  rw [all_toList] at hdue
  simp only at hdue
  revert h hdue
  generalize m.semantics.at p.opening id w = r
  rcases r with ⟨f | _, w'⟩
  · rintro rfl hdue
    refine ⟨1, ⟨stack, w', history'⟩, .ended (hstep.trans ?_), rfl⟩
    rw [Machine.expand, hp]
    simp only [hslots, if_true, hdue]
  · intro h hdue
    obtain ⟨n, c', hends, hw⟩ := h history'
    refine ⟨n + 1, c', .moved (hstep.trans ?_) hends, hw⟩
    rw [Machine.expand, hp]
    simp only [hslots, if_true, hdue, branch]

/-! ## Walks -/

/-- The walk over a forest is what the machine does from its frames down to what lies below. -/
theorem Leads.walk (hm : m.semantics.Local) {F : Forest α}
    (hslots : F.Everywhere fun p _ => p.slots.length = p.right.length)
    {after : List Token} (hF : F.Predicted m.grammar m.table last after) {id : Nat}
    {slots : List (Option α)} (hlength : slots.length = F.roots.length)
    {stack : List (Frame α)} (hstack : stack ≠ []) {w : Workspace}
    (hstands : w.tree.Stands id F.roots) (hid : ∀ j < F.roots.length, id + j ≠ sentinel)
    (hsize : sentinel < w.tree.size) {o : Verdict × Workspace}
    (h : After (F.walk m.semantics id slots w)
      (m.Leads last (after.map (Lookahead.ofToken m.grammar)) stack) o) :
    m.Leads last ((F.tokens ++ after).map (Lookahead.ofToken m.grammar))
      (frames id slots ++ stack) w o := by
  induction F generalizing after id slots stack w with
  | nil =>
    obtain rfl := List.length_eq_zero_iff.mp hlength
    exact h
  | leaf i token rest ih =>
    obtain ⟨slot, slots, rfl⟩ := List.exists_cons_of_length_eq_add_one hlength
    simp only [Forest.walk, List.head?_cons, Option.join_some, List.tail_cons, After.andThen] at h
    rw [frames_cons]
    refine Leads.prepend (List.cons_ne_nil _ _) ?_
    rw [all_toList]
    refine h.mono fun w₁ he₁ h => ?_
    have ht₁ := (hm.keeps_at slot id).extends he₁
    refine Leads.take (hstands.extends ht₁).head (hid 0 (Nat.succ_pos _)) hF.1 rfl rfl ?_
    refine h.mono fun w₂ he₂ h => ?_
    have ht := ht₁.trans ((Effect.keeps_take token id).extends he₂)
    refine ih hslots hF.2 (Nat.succ.inj hlength) hstack (hstands.tail.extends ht) (fun j hj => ?_)
      (hsize.trans_le ht.size_le) h
    exact fun he => hid (j + 1) (Nat.succ_lt_succ hj) (by omega)
  | node p below rest ihb ihr =>
    obtain ⟨slot, slots, rfl⟩ := List.exists_cons_of_length_eq_add_one hlength
    obtain ⟨⟨i, hi, hp, hroots, hbelow⟩, hrest⟩ := hF
    obtain ⟨⟨hpslots, hbelowslots⟩, hrestslots⟩ := hslots
    simp only [Forest.walk, List.head?_cons, Option.join_some, List.tail_cons, After.andThen] at h
    rw [frames_cons, Forest.tokens, List.append_assoc]
    refine Leads.prepend (List.cons_ne_nil _ _) ?_
    rw [all_toList]
    refine h.mono fun w₁ he₁ h => ?_
    have ht₁ := (hm.keeps_at slot id).extends he₁
    refine Leads.expand (hstands.extends ht₁).head hi hp hpslots ?_
    refine h.mono fun w₂ he₂ h => ?_
    have ht₂ := ht₁.trans ((hm.keeps_at p.opening id).extends he₂)
    have hsize₂ := hsize.trans_le ht₂.size_le
    have hmore : frames (id + 1) slots ++ stack ≠ [] := by simp [hstack]
    rw [below_eq]
    refine ihb hbelowslots hbelow (hpslots.trans (by rw [hroots])) ?_
      (hroots ▸ w₂.tree.stands_attachAll id _)
      (fun j _ he => ?_) (by simp only [Tree.size_attachAll]; omega) (h.mono fun w₃ he₃ h => ?_)
    · exact fun he => hmore (by simpa [prepend_eq_nil] using he)
    · omega
    refine Leads.prepend hmore ?_
    rw [all_toList]
    refine h.mono fun w₄ he₄ h => ?_
    have hbranch : w₂.tree.Extends w₃.tree := (w₂.tree.extends_attachAll id p.right).trans
      ((below.keeps_walk hm _ _).extends he₃)
    have ht := (ht₂.trans hbranch).trans ((hm.keeps_at p.closing id).extends he₄)
    refine ihr hrestslots hrest (Nat.succ.inj hlength) hstack (hstands.tail.extends ht) (fun j hj => ?_)
      (hsize.trans_le ht.size_le) h
    exact fun he => hid (j + 1) (Nat.succ_lt_succ hj) (by omega)

/-! ## Runs -/

theorem Ends.unique {n n' : Nat} {rest : List Lookahead} {c c₁ c₂ : Config α} {v v' : Verdict}
    (h : m.Ends last n rest c v c₁) (h' : m.Ends last n' rest c v' c₂) : v = v' ∧ c₁ = c₂ := by
  induction h generalizing n' with
  | ended hs =>
    cases h' with
    | ended hs' =>
      cases hs.symm.trans hs'
      exact ⟨rfl, rfl⟩
    | moved hs' => cases hs.symm.trans hs'
    | taken hs' => cases hs.symm.trans hs'
  | moved hs _ ih =>
    cases h' with
    | ended hs' => cases hs.symm.trans hs'
    | moved hs' h' =>
      cases hs.symm.trans hs'
      exact ih h'
    | taken hs' => cases hs.symm.trans hs'
  | taken hs _ ih =>
    cases h' with
    | ended hs' => cases hs.symm.trans hs'
    | moved hs' => cases hs.symm.trans hs'
    | taken hs' h' =>
      cases hs.symm.trans hs'
      exact ih h'

/-- With an exact table a run comes to what the recognizer comes to, unless an action fails. -/
theorem run_verdict_cases {g : Grammar α} {c : Compiled} (hc : c.Exact g) {s : Semantics α}
    (hs : s.Local) (tokens : List Token) (pool : Pool) :
    Justified g tokens ((Machine.mk g c.table s).run tokens pool).verdict ∨
      ∃ f, ((Machine.mk g c.table s).run tokens pool).verdict = .rejected f := by
  have hcases := goOn_cases (m := ⟨g, c.table, s⟩) hs (Machine.mk g c.table s).patience
    (Lookahead.atEnd tokens) (tokens.map (Lookahead.ofToken g)) (shows_start ⟨g, c.table, s⟩ pool)
  rcases hcases with he | ⟨f, he, -⟩
  · have hv : ((Machine.mk g c.table s).run tokens pool).verdict =
        ((c.recognizer g).run tokens pool).verdict :=
      he.trans (run_eq_goOn g c.table tokens pool).symm
    exact .inl (hv ▸ justified_run hc tokens pool)
  · exact .inr ⟨f, he⟩

theorem run_accepted_or_rejected {g : Grammar α} {c : Compiled} (hc : c.Exact g) {s : Semantics α}
    (hs : s.Local) (tokens : List Token) (pool : Pool) :
    ((Machine.mk g c.table s).run tokens pool).verdict = .accepted ∨
      ∃ f, ((Machine.mk g c.table s).run tokens pool).verdict = .rejected f := by
  rcases run_verdict_cases hc hs tokens pool with hj | hf
  · exact hj.accepted_or_rejected
  · exact .inr hf

/-- Whatever the actions are, only sentences are accepted. -/
theorem sentence_of_accepted {g : Grammar α} {c : Compiled} (hc : c.Exact g) {s : Semantics α}
    (hs : s.Local) {tokens : List Token} {pool : Pool}
    (h : ((Machine.mk g c.table s).run tokens pool).verdict = .accepted) : g.Sentence tokens := by
  have hcases := run_verdict_cases hc hs tokens pool
  rw [h] at hcases
  rcases hcases with hj | ⟨f, hf⟩
  · cases hj
    assumption
  · cases hf

/-- A run that comes to an end comes to the end of its loop. -/
theorem exists_ends_run {tokens : List Token} {pool : Pool}
    (h : (m.run tokens pool).verdict = .accepted ∨ ∃ f, (m.run tokens pool).verdict = .rejected f) :
    ∃ n c', m.Ends (Lookahead.atEnd tokens) n (tokens.map (Lookahead.ofToken m.grammar))
        (m.start pool) (m.run tokens pool).verdict c' ∧
      c'.workspace = ⟨(m.run tokens pool).tree, (m.run tokens pool).pool⟩ ∧
      c'.history.reverse = (m.run tokens pool).history := by
  have hne : (m.run tokens pool).verdict ≠ .endless ∧ (m.run tokens pool).verdict ≠ .astray := by
    rcases h with hv | ⟨f, hv⟩
    · simp [hv]
    · simp [hv]
  obtain ⟨n, hn⟩ := Ends.of_goOn rfl hne.1 hne.2
  exact ⟨n, _, hn, rfl, rfl⟩

/-- The end mark's node ends the loop when the input is used up. -/
theorem leads_sentinel (hlast : last.sign = some .pound) {w : Workspace}
    (hsign : w.tree.sign? sentinel = some .pound) :
    m.Leads last [] [⟨[], sentinel⟩] w (.accepted, w) := by
  intro history
  refine ⟨1, ⟨[], w, history⟩, .ended ?_, rfl⟩
  have hsign' : (w.tree.node? sentinel).map Node.sign = some .pound := hsign
  simp only [step, performAll, visit, hsign', List.headD_nil, hlast, if_true]

def verdictOf : Except Failure Unit → Verdict
  | .ok () => .accepted
  | .error f => .rejected f

/-- A run on a sentence is the walk over its derivation tree. -/
theorem run_eq_walk {g : Grammar α} {c : Compiled} (hc : c.Exact g) (hshapes : g.DistinctShapes)
    {s : Semantics α} (hs : s.Local) {F : Forest α} (hF : F.Grows g)
    (hslots : F.Everywhere fun p _ => p.slots.length = p.right.length)
    (hroots : F.roots = [.nonTerminal g.start])
    {pool : Pool} {r : Except Failure Unit} {w : Workspace}
    (hwalk : F.walk s Tree.root [none] ((Machine.mk g c.table s).start pool).workspace = (r, w)) :
    ((Machine.mk g c.table s).run F.tokens pool).verdict = verdictOf r ∧
      ((Machine.mk g c.table s).run F.tokens pool).tree = w.tree ∧
      ((Machine.mk g c.table s).run F.tokens pool).pool = w.pool := by
  have hreach : g.Derives [.nonTerminal g.start] ([] ++ (F.roots ++ [])) := by
    rw [hroots]
    exact .refl _
  have hpredicted : F.Predicted g c.table (Lookahead.atEnd F.tokens) [] :=
    hF.predicted hc hshapes rfl hreach ⟨[], rfl, .refl []⟩
  have hsize : ((Machine.mk g c.table s).start pool).workspace.tree.size = 2 := rfl
  have hstands : ((Machine.mk g c.table s).start pool).workspace.tree.Stands Tree.root F.roots := by
    rw [hroots]
    rintro (_ | j) hj
    · exact ⟨Nat.succ_pos _, rfl⟩
    · simp at hj
  have hid : ∀ j < F.roots.length, Tree.root + j ≠ sentinel := by
    rw [hroots]
    rintro (_ | j) hj
    · decide
    · simp at hj
  have hsentinel : w.tree.sign? sentinel = some .pound := by
    have hextends := (F.keeps_walk hs Tree.root [none]).extends hwalk
    exact hextends.sign sentinel (hsize ▸ Nat.one_lt_two)
  have hafter : After (r, w) ((Machine.mk g c.table s).Leads (Lookahead.atEnd F.tokens) []
      [⟨[], sentinel⟩]) (verdictOf r, w) := by
    rcases r with f | _
    · rfl
    · exact leads_sentinel rfl hsentinel
  obtain ⟨n, c₁, hends, hw₁, -⟩ :=
    exists_ends_run (run_accepted_or_rejected hc hs F.tokens pool)
  obtain ⟨n', c₂, hends', hw₂⟩ := Leads.walk (m := ⟨g, c.table, s⟩) hs hslots hpredicted
    (by simp [hroots]) (List.cons_ne_nil _ _) hstands hid (hsize ▸ Nat.one_lt_two)
    (hwalk ▸ hafter) []
  rw [List.append_nil] at hends'
  obtain ⟨hv, rfl⟩ := hends.unique hends'
  have hworkspace := hw₁.symm.trans hw₂
  exact ⟨hv, congrArg Workspace.tree hworkspace, congrArg Workspace.pool hworkspace⟩

end Machine

end PredictiveParsing
