import PredictiveParsing.Parse.Run
import PredictiveParsing.Proofs.Tree.Nodes

/-!
# Outlines of configurations

Which nodes a machine visits depends on the signs on its stack alone, as long as actions change
nothing of the tree but attributes (`Semantics.Local`). `Outline.step`, `advance` and `goOn` are the
machine told by signs; `step_cases`, `advance_cases` and `goOn_cases` say that a machine does the
same unless an action fails. A machine without actions just does the same (`run_eq_goOn`).
-/

namespace PredictiveParsing

variable {α : Type}

/-- Actions change nothing of the tree but the attributes of their own node. -/
def Semantics.Local (s : Semantics α) : Prop :=
  ∀ action id effect, s action id = some effect →
    ∀ w, ∃ attrs, (effect w).2.tree = w.tree.setAttrs id attrs

theorem Semantics.local_none : (Semantics.none : Semantics α).Local :=
  fun _ _ _ h => nomatch h

/-! ## The machine told by signs -/

namespace Outline

inductive Step where
  | moved (signs : List Sign)
  | taken (signs : List Sign)
  | ended (verdict : Verdict)

def step (g : Grammar α) (t : Table) (current : Lookahead) : List Sign → Step
  | [] => .ended (.rejected current.failure)
  | .empty :: u => .moved u
  | .nonTerminal n :: u =>
    match current.sign.bind (t.get? n) with
    | none => .ended (.rejected current.failure)
    | some i =>
      match g.productions[i]? with
      | none => .ended .astray
      | some p =>
        if p.slots.length = p.right.length then .moved (p.right ++ u)
        else .ended (.rejected (.arity (g.textOf p)))
  | s :: u =>
    if current.sign = some s then if u = [] then .ended .accepted else .taken u
    else .ended (.rejected current.failure)

def advance (g : Grammar α) (t : Table) (current : Lookahead) : Nat → List Sign → Step
  | 0, _ => .ended .endless
  | bound + 1, u =>
    match step g t current u with
    | .moved u => advance g t current bound u
    | outcome => outcome

def goOn (g : Grammar α) (t : Table) (patience : Nat) (last : Lookahead) :
    List Lookahead → List Sign → Verdict
  | [], u =>
    match advance g t last (u.length * patience + 1) u with
    | .moved _ => .endless
    | .taken _ => .astray
    | .ended verdict => verdict
  | current :: rest, u =>
    match advance g t current (u.length * patience + 1) u with
    | .moved _ => .endless
    | .taken u => goOn g t patience last rest u
    | .ended verdict => verdict

end Outline

/-! ## Configurations and their outlines -/

namespace Machine

variable {m : Machine α}

/-- The signs on the stack are `u`, and the end mark's node lies at the bottom only. -/
structure Shows (c : Config α) (u : List Sign) : Prop where
  signs : c.stack.map (fun f => c.workspace.tree.sign? f.node) = u.map some
  bottom : ∃ ids, c.stack.map Frame.node = ids ++ [sentinel] ∧ sentinel ∉ ids
  ends : ∃ v, u = v ++ [.pound]

/-- Some action of the machine can fail so. -/
def Raises (m : Machine α) (f : Failure) : Prop :=
  ∃ action id effect w, m.semantics action id = some effect ∧ (effect w).1 = .error f

theorem not_raises_none (g : Grammar α) (t : Table) (f : Failure) :
    ¬ (Machine.mk g t Semantics.none).Raises f := by
  rintro ⟨_, _, _, _, h, -⟩
  cases h

theorem Shows.congr {c c' : Config α} {u : List Sign} (h : Shows c u)
    (hstack : c'.stack.map Frame.node = c.stack.map Frame.node)
    (hsign : ∀ id, c'.workspace.tree.sign? id = c.workspace.tree.sign? id) : Shows c' u := by
  refine ⟨?_, hstack ▸ h.bottom, h.ends⟩
  have he := congrArg (List.map fun id => c.workspace.tree.sign? id) hstack
  simp only [List.map_map, Function.comp_def] at he
  simp only [hsign, he]
  exact h.signs

theorem Shows.length_eq {c : Config α} {u : List Sign} (h : Shows c u) :
    c.stack.length = u.length := by
  simpa using congrArg List.length h.signs

theorem shows_start (m : Machine α) (pool : Pool) :
    Shows (m.start pool) [.nonTerminal m.grammar.start, .pound] :=
  ⟨rfl, ⟨[Tree.root], rfl, by decide⟩, [.nonTerminal m.grammar.start], rfl⟩

/-! ## Actions -/

/-- An action leaves the stack alone and writes the attributes of its node. -/
theorem perform_eq_setAttrs (hm : m.semantics.Local) {action : α} {id : Nat} {c c' : Config α}
    {r : Except Failure Unit} (h : m.perform action id c = (r, c')) :
    c'.stack = c.stack ∧ ∃ attrs, c'.workspace.tree = c.workspace.tree.setAttrs id attrs := by
  rw [perform] at h
  split at h
  next =>
    cases h
    exact ⟨rfl, _, (Tree.setAttrs_attrs _ id).symm⟩
  next effect he =>
    cases h
    exact ⟨rfl, hm action id effect he c.workspace⟩

/-- What each of the actions keeps is kept by all of them. -/
theorem performAll_keeps {P : Config α → Prop} {due : List (α × Nat)}
    (hP : ∀ a ∈ due, ∀ c r c', m.perform a.1 a.2 c = (r, c') → P c → P c') {c c' : Config α}
    {r : Except Failure Unit} (h : m.performAll due c = (r, c')) (hc : P c) : P c' := by
  induction due generalizing c with
  | nil =>
    cases h
    exact hc
  | cons head due ih =>
    rw [List.forall_mem_cons] at hP
    rw [performAll] at h
    split at h
    next c₁ he => exact ih hP.2 h (hP.1 _ _ _ he hc)
    next f c₁ he =>
      cases h
      exact hP.1 _ _ _ he hc

theorem perform_spec (hm : m.semantics.Local) {action : α} {id : Nat} {c c' : Config α}
    {r : Except Failure Unit} (h : m.perform action id c = (r, c')) :
    c'.stack = c.stack ∧ (∀ id', c'.workspace.tree.sign? id' = c.workspace.tree.sign? id') ∧
      ∀ f, r = .error f → m.Raises f := by
  obtain ⟨hstack, attrs, hattrs⟩ := perform_eq_setAttrs hm h
  refine ⟨hstack, fun id' => by rw [hattrs, Tree.sign?_setAttrs], fun f hf => ?_⟩
  rw [perform] at h
  split at h
  next =>
    cases h
    cases hf
  next effect he =>
    cases h
    exact ⟨action, id, effect, c.workspace, he, hf⟩

theorem performAll_spec (hm : m.semantics.Local) {due : List (α × Nat)} {c c' : Config α}
    {r : Except Failure Unit} (h : m.performAll due c = (r, c')) :
    c'.stack = c.stack ∧ (∀ id', c'.workspace.tree.sign? id' = c.workspace.tree.sign? id') ∧
      ∀ f, r = .error f → m.Raises f := by
  induction due generalizing c with
  | nil =>
    cases h
    exact ⟨rfl, fun _ => rfl, fun _ e => nomatch e⟩
  | cons head due ih =>
    obtain ⟨action, id⟩ := head
    rw [performAll] at h
    split at h
    next c₁ he =>
      obtain ⟨hs, ht, -⟩ := perform_spec hm he
      obtain ⟨hs', ht', hf⟩ := ih h
      exact ⟨hs'.trans hs, fun id' => (ht' id').trans (ht id'), hf⟩
    next f c₁ he =>
      cases h
      exact perform_spec hm he

/-! ## Steps -/

/-- The step of a machine is that of the outline, which `Shows` carries on. -/
def Agrees (o : Outcome α) : Outline.Step → Prop
  | .moved u => ∃ c, o = .moved c ∧ Shows c u
  | .taken u => ∃ c, o = .taken c ∧ Shows c u
  | .ended verdict => ∃ c, o = .ended verdict c

def Interrupted (m : Machine α) (o : Outcome α) : Prop :=
  ∃ f c, o = .ended (.rejected f) c ∧ m.Raises f

@[simp] theorem map_node_frames (first : Nat) (slots : List (Option α)) :
    (frames first slots).map Frame.node = List.range' first slots.length := by
  induction slots generalizing first with
  | nil => rfl
  | cons slot slots ih => simp [frames, ih, List.range'_succ]

@[simp] theorem map_node_below (p : Production α) (id : Nat) (stack : List (Frame α)) :
    (below p id stack).map Frame.node = stack.map Frame.node := by
  rw [below]
  split
  · cases stack <;> rfl
  · rfl

/-- The children are put onto the stack in the place of their parent. -/
theorem Shows.branch {c : Config α} {u : List Sign} (h : Shows c u) {p : Production α}
    (hp : p.slots.length = p.right.length) (id : Nat) :
    Shows (branch p id c) (p.right ++ u) := by
  obtain ⟨ids, hids, hnot⟩ := h.bottom
  have hlt : ∀ f ∈ c.stack, f.node < c.workspace.tree.size := by
    intro f hf
    have hmem : c.workspace.tree.sign? f.node ∈ u.map some :=
      h.signs ▸ List.mem_map_of_mem hf
    obtain ⟨s, -, hs⟩ := List.mem_map.mp hmem
    exact Tree.lt_size_of_sign? hs.symm
  have hone : sentinel < c.workspace.tree.size := by
    have hmem : sentinel ∈ c.stack.map Frame.node := hids ▸ by simp
    obtain ⟨f, hf, he⟩ := List.mem_map.mp hmem
    exact he ▸ hlt f hf
  have hstack : (Machine.branch p id c).stack =
      frames c.workspace.tree.size p.slots ++ below p id c.stack := rfl
  have htree : (Machine.branch p id c).workspace.tree = c.workspace.tree.attachAll id p.right := rfl
  have hnodes : (Machine.branch p id c).stack.map Frame.node =
      List.range' c.workspace.tree.size p.right.length ++ c.stack.map Frame.node := by
    rw [hstack, List.map_append, map_node_frames, map_node_below, hp]
  refine ⟨?_, ⟨List.range' c.workspace.tree.size p.right.length ++ ids, ?_, ?_⟩, ?_⟩
  · have he := congrArg
      (List.map fun id' => (c.workspace.tree.attachAll id p.right).sign? id') hnodes
    simp only [List.map_map, Function.comp_def, List.map_append] at he
    rw [htree, he, List.map_append]
    congr 1
    · refine List.ext_getElem? fun i => ?_
      simp only [List.getElem?_map]
      by_cases hi : i < p.right.length
      · simp only [List.getElem?_range' hi, Option.map_some, Tree.sign?_attachAll]
        rw [if_neg (by omega), Nat.one_mul, Nat.add_sub_cancel_left, List.getElem?_eq_getElem hi,
          Option.map_some]
      · simp [Nat.le_of_not_lt hi]
    · rw [← h.signs]
      refine List.map_congr_left fun f hf => ?_
      rw [Tree.sign?_attachAll, if_pos (hlt f hf)]
  · rw [hnodes, hids, List.append_assoc]
  · simp only [List.mem_append, List.mem_range'_1, not_or]
    exact ⟨by omega, hnot⟩
  · obtain ⟨v, rfl⟩ := h.ends
    exact ⟨p.right ++ v, (List.append_assoc ..).symm⟩

/-- The top of the stack shows its sign and is the end mark's node when nothing lies below it. -/
theorem Shows.top {frame : Frame α} {stack : List (Frame α)} {w : Workspace}
    {history : List (Event α)} {u : List Sign} (h : Shows ⟨frame :: stack, w, history⟩ u) :
    ∃ s u', u = s :: u' ∧ w.tree.sign? frame.node = some s ∧
      (u' = [] → s = .pound ∧ frame.node = sentinel) ∧
      (u' ≠ [] → frame.node ≠ sentinel ∧ Shows ⟨stack, w, history⟩ u') := by
  obtain ⟨ids, hids, hnot⟩ := h.bottom
  obtain ⟨v, rfl⟩ := h.ends
  have hsigns := h.signs
  have hlength : ids.length = v.length := by
    have hl := h.length_eq
    have hl' := congrArg List.length hids
    simp only [List.length_map, List.length_append, List.length_singleton] at hl hl'
    omega
  cases v with
  | nil =>
    obtain rfl : ids = [] := List.length_eq_zero_iff.mp hlength
    simp only [List.map_cons, List.nil_append, List.cons.injEq] at hids hsigns
    exact ⟨.pound, [], rfl, hsigns.1, fun _ => ⟨rfl, hids.1⟩, fun hne => absurd rfl hne⟩
  | cons s v =>
    obtain ⟨id, ids, rfl⟩ := List.exists_cons_of_length_eq_add_one hlength
    simp only [List.map_cons, List.cons_append, List.cons.injEq] at hids hsigns
    simp only [List.mem_cons, not_or] at hnot
    exact ⟨s, v ++ [.pound], rfl, hsigns.1, fun e => by simp at e, fun _ =>
      ⟨fun e => hnot.1 (e ▸ hids.1), ⟨hsigns.2, ⟨ids, hids.2, hnot.2⟩, ⟨v, rfl⟩⟩⟩⟩

theorem expand_cases (hm : m.semantics.Local) {current : Lookahead} {id i : Nat} {c : Config α}
    {u : List Sign} (h : Shows c u) :
    Agrees (m.expand current id i c)
      (match m.grammar.productions[i]? with
      | none => .ended .astray
      | some p =>
        if p.slots.length = p.right.length then .moved (p.right ++ u)
        else .ended (.rejected (.arity (m.grammar.textOf p)))) ∨
      m.Interrupted (m.expand current id i c) := by
  rw [expand]
  cases m.grammar.productions[i]? with
  | none => exact .inl ⟨c, rfl⟩
  | some p =>
    by_cases hp : p.slots.length = p.right.length
    · simp only [if_pos hp]
      generalize ho : m.performAll _ _ = o
      obtain ⟨r, c'⟩ := o
      obtain ⟨hs, ht, hf⟩ := performAll_spec hm ho
      cases r with
      | ok => exact .inl ⟨_, rfl, (h.congr (by rw [hs]) ht).branch hp id⟩
      | error f => exact .inr ⟨f, c', rfl, hf f rfl⟩
    · simp only [if_neg hp]
      exact .inl ⟨c, rfl⟩

theorem step_cases (hm : m.semantics.Local) (current : Lookahead) {c : Config α} {u : List Sign}
    (h : Shows c u) :
    Agrees (m.step current c) (Outline.step m.grammar m.table current u) ∨
      m.Interrupted (m.step current c) := by
  obtain ⟨stack, w, history⟩ := c
  cases stack with
  | nil =>
    obtain ⟨ids, hids, -⟩ := h.bottom
    exact absurd hids (by simp)
  | cons frame stack =>
    rw [step]
    generalize ho : m.performAll _ _ = o
    obtain ⟨r, c⟩ := o
    obtain ⟨hs, ht, hf⟩ := performAll_spec hm ho
    cases r with
    | error f => exact .inr ⟨f, c, rfl, hf f rfl⟩
    | ok =>
      obtain ⟨s, u, rfl, hsign, hlast, hmore⟩ := h.top
      have hrest : u ≠ [] → Shows c u := fun hu => (hmore hu).2.congr (by rw [hs]) ht
      have hshown : (c.workspace.tree.node? frame.node).map Node.sign = some s :=
        (ht frame.node).trans hsign
      have hinner : s ≠ .pound → u ≠ [] := fun hne hu => hne (hlast hu).1
      simp only [visit, hshown]
      cases s with
      | empty => exact .inl ⟨c, rfl, hrest (hinner (by simp))⟩
      | nonTerminal n =>
        simp only [Outline.step]
        cases current.sign.bind (m.table.get? n) with
        | none => exact .inl ⟨c, rfl⟩
        | some i => exact expand_cases hm (hrest (hinner (by simp)))
      | terminal t =>
        have hu : u ≠ [] := hinner (by simp)
        simp only [Outline.step, if_neg hu, if_neg (hmore hu).1]
        split
        · exact .inl ⟨_, rfl, (hrest hu).congr rfl fun id => Tree.sign?_setAttrs ..⟩
        · exact .inl ⟨c, rfl⟩
      | pound =>
        simp only [Outline.step]
        split
        · by_cases hu : u = []
          · rw [if_pos hu, if_pos (hlast hu).2]
            exact .inl ⟨c, rfl⟩
          · rw [if_neg hu, if_neg (hmore hu).1]
            exact .inl ⟨_, rfl, (hrest hu).congr rfl fun id => Tree.sign?_setAttrs ..⟩
        · exact .inl ⟨c, rfl⟩

/-! ## Runs -/

theorem advance_cases (hm : m.semantics.Local) (current : Lookahead) (bound : Nat) {c : Config α}
    {u : List Sign} (h : Shows c u) :
    Agrees (m.advance current bound c) (Outline.advance m.grammar m.table current bound u) ∨
      m.Interrupted (m.advance current bound c) := by
  induction bound generalizing c u with
  | zero => exact .inl ⟨c, rfl⟩
  | succ bound ih =>
    rw [advance, Outline.advance]
    rcases step_cases hm current h with hs | ⟨f, c', hs, hf⟩
    · cases ho : Outline.step m.grammar m.table current u with
      | moved u' =>
        rw [ho] at hs
        obtain ⟨c', hc, h'⟩ := hs
        simp only [hc]
        exact ih h'
      | taken u' =>
        rw [ho] at hs
        obtain ⟨c', hc, h'⟩ := hs
        simp only [hc]
        exact .inl ⟨c', rfl, h'⟩
      | ended verdict =>
        rw [ho] at hs
        obtain ⟨c', hc⟩ := hs
        simp only [hc]
        exact .inl ⟨c', rfl⟩
    · simp only [hs]
      exact .inr ⟨f, c', rfl, hf⟩

theorem goOn_cases (hm : m.semantics.Local) (patience : Nat) (last : Lookahead)
    (rest : List Lookahead) {c : Config α} {u : List Sign} (h : Shows c u) :
    (m.goOn patience last rest c).1 = Outline.goOn m.grammar m.table patience last rest u ∨
      ∃ f, (m.goOn patience last rest c).1 = .rejected f ∧ m.Raises f := by
  induction rest generalizing c u with
  | nil =>
    rw [goOn, Outline.goOn, h.length_eq]
    rcases advance_cases hm last (u.length * patience + 1) h with ha | ⟨f, c', ha, hf⟩
    · revert ha
      cases Outline.advance m.grammar m.table last (u.length * patience + 1) u with
      | moved | taken | ended => rintro ⟨c', ha⟩; simp [ha]
    · simp only [ha]
      exact .inr ⟨f, rfl, hf⟩
  | cons current rest ih =>
    rw [goOn, Outline.goOn, h.length_eq]
    rcases advance_cases hm current (u.length * patience + 1) h with ha | ⟨f, c', ha, hf⟩
    · revert ha
      cases Outline.advance m.grammar m.table current (u.length * patience + 1) u with
      | moved => rintro ⟨c', ha, -⟩; simp [ha]
      | taken => rintro ⟨c', ha, h'⟩; simp only [ha]; exact ih h'
      | ended => rintro ⟨c', ha⟩; simp [ha]
    · simp only [ha]
      exact .inr ⟨f, rfl, hf⟩

/-- Without actions a machine does what its outline does. -/
theorem run_eq_goOn (g : Grammar α) (t : Table) (tokens : List Token) (pool : Pool) :
    ((Machine.mk g t Semantics.none).run tokens pool).verdict =
      Outline.goOn g t (Machine.mk g t Semantics.none).patience (Lookahead.atEnd tokens)
        (tokens.map (Lookahead.ofToken g)) [.nonTerminal g.start, .pound] := by
  rcases goOn_cases (m := ⟨g, t, Semantics.none⟩) Semantics.local_none
    (Machine.mk g t Semantics.none).patience (Lookahead.atEnd tokens)
    (tokens.map (Lookahead.ofToken g)) (shows_start ⟨g, t, Semantics.none⟩ pool) with h | ⟨f, -, hf⟩
  · exact h
  · exact absurd hf (not_raises_none g t f)

end Machine

end PredictiveParsing
