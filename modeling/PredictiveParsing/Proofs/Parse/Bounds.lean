import PredictiveParsing.Proofs.Parse.Progress

/-!
# Numbers stay in range

Every number that a machine goes by names something: the productions in the cells of its table, the
nodes on its stack and those of the actions that are due, and the nodes that an action can look at
from its own. `InRange` says so of a configuration, and a step keeps it (`inRange_step`).

`Reaches.safe`: at every configuration that a run comes to, the next step keeps to what there is.
-/

namespace PredictiveParsing

variable {α : Type}

namespace Tree

/-- Nodes that an action at `id` looks at. -/
inductive Sees (t : Tree) (id : Nat) : Nat → Prop
  | own : Sees t id id
  | child {i c : Nat} (h : t.child? id i = some c) : Sees t id c
  | sibling {back s : Nat} (h : t.sibling? id back = some s) : Sees t id s
  | ancestor {a : Nat} (h : a ∈ t.ancestors id) : Sees t id a

/-- No link leads out of the tree, and no way up leads round. -/
structure Closed (t : Tree) : Prop where
  child_lt : ∀ id, ∀ c ∈ t.children id, c < t.size
  linked : t.Linked

theorem Closed.parent_lt {t : Tree} (h : t.Closed) {id parent : Nat}
    (hp : t.parent? id = some parent) : parent < t.size := by
  obtain ⟨n, hn, -⟩ := Option.bind_eq_some_iff.mp hp
  exact (h.linked id parent hp).trans (lt_size_of_node? hn)

theorem Closed.ancestor_lt {t : Tree} (h : t.Closed) {bound id a : Nat}
    (ha : a ∈ t.ancestorsUpTo bound id) : a < t.size := by
  induction bound generalizing id with
  | zero => cases ha
  | succ bound ih =>
    rw [ancestorsUpTo] at ha
    cases hp : t.parent? id with
    | none =>
      rw [hp] at ha
      cases ha
    | some parent =>
      rw [hp] at ha
      rcases List.mem_cons.mp ha with rfl | ha
      · exact h.parent_lt hp
      · exact ih ha

theorem Closed.sees_lt {t : Tree} (h : t.Closed) {id id' : Nat} (hid : id < t.size)
    (hs : t.Sees id id') : id' < t.size := by
  cases hs with
  | own => exact hid
  | child hc => exact h.child_lt id _ (List.mem_of_getElem? hc)
  | ancestor ha => exact h.ancestor_lt ha
  | sibling hs =>
    obtain ⟨n, -, hs⟩ := Option.bind_eq_some_iff.mp hs
    obtain ⟨parent, -, hs⟩ := Option.bind_eq_some_iff.mp hs
    split at hs
    · exact h.child_lt parent _ (List.mem_of_getElem? hs)
    · cases hs

theorem children_setAttrs (t : Tree) (id : Nat) (attrs : Attributes) (i : Nat) :
    (t.setAttrs id attrs).children i = t.children i := by
  rw [children, node?_setAttrs, children]
  cases t.node? i with
  | none => rfl
  | some n => by_cases h : i = id <;> simp [h]

theorem Closed.setAttrs {t : Tree} (h : t.Closed) (id : Nat) (attrs : Attributes) :
    (t.setAttrs id attrs).Closed where
  child_lt i c hc := by
    rw [children_setAttrs] at hc
    rw [size_setAttrs]
    exact h.child_lt i c hc
  linked := h.linked.setAttrs id attrs

theorem Closed.attachAll {t : Tree} (h : t.Closed) {id : Nat} (hid : id < t.size)
    (u : List Sign) : (t.attachAll id u).Closed where
  child_lt i c hc := by
    have hnew : ∀ c ∈ List.range' t.size u.length, c < t.size + u.length :=
      fun c hc => (List.mem_range'_1.mp hc).2
    have hold : ∀ c ∈ t.children i, c < t.size + u.length :=
      fun c hc => (h.child_lt i c hc).trans_le (Nat.le_add_right ..)
    rw [children, node?_attachAll hid] at hc
    rw [size_attachAll]
    split at hc
    · cases hn : t.node? i with
      | none => simp [hn] at hc
      | some n =>
        rw [children_eq hn] at hold
        rw [hn] at hc
        by_cases hi : i = id
        · simp only [hi, Option.map_some, if_true, Option.elim_some, List.mem_append] at hc
          exact hc.elim (hold c) (hnew c)
        · simp only [hi, Option.map_some, if_false, Option.elim_some] at hc
          exact hold c hc
    · cases hs : u[i - t.size]? <;> simp [hs] at hc
  linked := h.linked.attachAll hid u

end Tree

/-! ## Configurations -/

/-- The configuration that a step leads to. -/
def Outcome.config : Outcome α → Config α
  | .moved c => c
  | .taken c => c
  | .ended _ c => c

structure Config.InRange (c : Config α) : Prop where
  closed : c.workspace.tree.Closed
  node_lt : ∀ frame ∈ c.stack, frame.node < c.workspace.tree.size
  due_lt : ∀ frame ∈ c.stack, ∀ a ∈ frame.due, a.2 < c.workspace.tree.size

namespace Machine

variable {m : Machine α} {current : Lookahead}

theorem inRange_start (m : Machine α) (pool : Pool) : (m.start pool).InRange where
  closed :=
    { child_lt := by
        rintro (_ | _ | id) c hc
        · cases hc
        · cases hc
        · cases hc
      linked := by
        rintro (_ | _ | id) parent hp
        · cases hp
        · cases hp
        · cases hp }
  node_lt := by
    rintro frame hf
    rcases List.mem_pair.mp hf with rfl | rfl
    · exact Nat.succ_pos 1
    · exact Nat.lt_succ_self 1
  due_lt := by
    rintro frame hf
    rcases List.mem_pair.mp hf with rfl | rfl
    · exact nofun
    · exact nofun

/-- Actions leave the stack and the links as they are. -/
theorem inRange_performAll (hm : m.semantics.Local) {due : List (α × Nat)} {c c' : Config α}
    {r : Except Failure Unit} (hc : c.InRange) (h : m.performAll due c = (r, c')) :
    c'.InRange ∧ c'.workspace.tree.size = c.workspace.tree.size := by
  refine performAll_keeps
    (P := fun c₁ => c₁.InRange ∧ c₁.workspace.tree.size = c.workspace.tree.size)
    (fun a _ c₁ r₁ c₂ he ⟨hc₁, hsize₁⟩ => ?_) h ⟨hc, rfl⟩
  obtain ⟨hstack, attrs, hattrs⟩ := perform_eq_setAttrs hm he
  have hsize : c₂.workspace.tree.size = c₁.workspace.tree.size := by
    rw [hattrs, Tree.size_setAttrs]
  refine ⟨⟨?_, ?_, ?_⟩, hsize.trans hsize₁⟩
  · rw [hattrs]
    exact hc₁.closed.setAttrs a.2 attrs
  · rw [hstack, hsize]
    exact hc₁.node_lt
  · rw [hstack, hsize]
    exact hc₁.due_lt

theorem node_of_mem_frames {frame : Frame α} {id : Nat} {slots : List (Option α)}
    (h : frame ∈ frames id slots) :
    frame.node < id + slots.length ∧ ∀ a ∈ frame.due, a.2 = frame.node := by
  induction slots generalizing id with
  | nil => cases h
  | cons slot slots ih =>
    rcases List.mem_cons.mp h with rfl | h
    · exact ⟨by simp, by simp⟩
    · obtain ⟨hlt, hdue⟩ := ih h
      refine ⟨?_, hdue⟩
      rw [List.length_cons]
      omega

theorem of_mem_prepend {due : List (α × Nat)} {stack : List (Frame α)} {frame : Frame α}
    (h : frame ∈ prepend due stack) : ∃ frame' ∈ stack, frame.node = frame'.node ∧
      ∀ a ∈ frame.due, a ∈ due ∨ a ∈ frame'.due := by
  cases stack with
  | nil => cases h
  | cons top stack =>
    rcases List.mem_cons.mp h with rfl | h
    · exact ⟨top, List.mem_cons_self, rfl, fun a ha => List.mem_append.mp ha⟩
    · exact ⟨frame, List.mem_cons_of_mem top h, rfl, fun a ha => .inr ha⟩

/-- What lies below has an action of the node `id` due at most. -/
theorem of_mem_below {p : Production α} {id : Nat} {stack : List (Frame α)} {frame : Frame α}
    (h : frame ∈ below p id stack) : ∃ frame' ∈ stack, frame.node = frame'.node ∧
      ∀ a ∈ frame.due, a.2 = id ∨ a ∈ frame'.due := by
  rw [below_eq] at h
  obtain ⟨frame', hframe', hnode, hdue⟩ := of_mem_prepend h
  refine ⟨frame', hframe', hnode, fun a ha => (hdue a ha).imp_left fun hclosing => ?_⟩
  obtain ⟨action, -, rfl⟩ := List.mem_map.mp hclosing
  rfl

theorem inRange_branch {c : Config α} (hc : c.InRange) {id : Nat} (hid : id < c.workspace.tree.size)
    {p : Production α} (hp : p.slots.length = p.right.length) : (branch p id c).InRange := by
  have hsize : (branch p id c).workspace.tree.size = c.workspace.tree.size + p.right.length :=
    Tree.size_attachAll ..
  have hstack : (branch p id c).stack =
      frames c.workspace.tree.size p.slots ++ below p id c.stack := rfl
  have hlt : ∀ frame ∈ (branch p id c).stack,
      frame.node < c.workspace.tree.size + p.right.length ∧
        ∀ a ∈ frame.due, a.2 < c.workspace.tree.size + p.right.length := by
    intro frame hf
    rw [hstack] at hf
    rcases List.mem_append.mp hf with hf | hf
    · obtain ⟨hnode, hdue⟩ := node_of_mem_frames hf
      rw [hp] at hnode
      exact ⟨hnode, fun a ha => hdue a ha ▸ hnode⟩
    · obtain ⟨frame', hf', hnode, hdue⟩ := of_mem_below hf
      refine ⟨hnode ▸ Nat.lt_add_right _ (hc.node_lt frame' hf'), fun a ha => ?_⟩
      rcases hdue a ha with rfl | ha
      · exact Nat.lt_add_right _ hid
      · exact Nat.lt_add_right _ (hc.due_lt frame' hf' a ha)
  refine ⟨hc.closed.attachAll hid p.right, fun frame hf => ?_, fun frame hf a ha => ?_⟩
  · exact hsize ▸ (hlt frame hf).1
  · exact hsize ▸ (hlt frame hf).2 a ha

theorem inRange_take {c : Config α} (hc : c.InRange) (current : Lookahead) (id : Nat) :
    (take current id c).InRange := by
  have hsize : (take current id c).workspace.tree.size = c.workspace.tree.size :=
    Tree.size_setAttrs ..
  exact ⟨hc.closed.setAttrs id _, hsize ▸ hc.node_lt, hsize ▸ hc.due_lt⟩

theorem inRange_expand (hm : m.semantics.Local) {c : Config α} (hc : c.InRange) {id : Nat}
    (hid : id < c.workspace.tree.size) (i : Nat) : (m.expand current id i c).config.InRange := by
  rw [expand]
  cases m.grammar.productions[i]? with
  | none => exact hc
  | some p =>
    by_cases hp : p.slots.length = p.right.length
    · simp only [if_pos hp]
      have hlogged : Config.InRange { c with history := .expanded id i current.line :: c.history } :=
        ⟨hc.closed, hc.node_lt, hc.due_lt⟩
      generalize ho : m.performAll _ _ = o
      obtain ⟨r, c₁⟩ := o
      obtain ⟨hc₁, hsize⟩ := inRange_performAll hm hlogged ho
      cases r with
      | ok => exact inRange_branch hc₁ (hsize ▸ hid) hp
      | error f => exact hc₁
    · simp only [if_neg hp]
      exact hc

theorem inRange_visit (hm : m.semantics.Local) {c : Config α} (hc : c.InRange) {id : Nat}
    (hid : id < c.workspace.tree.size) : (m.visit current id c).config.InRange := by
  rw [visit]
  split
  · exact hc
  · exact hc
  · split
    · exact hc
    · exact inRange_expand hm hc hid _
  · split
    · split
      · exact hc
      · exact inRange_take hc current id
    · exact hc

/-- What lies below the top of a stack that is in range. -/
theorem inRange_pop {frame : Frame α} {stack : List (Frame α)} {w : Workspace}
    {history : List (Event α)} (hc : Config.InRange ⟨frame :: stack, w, history⟩) :
    Config.InRange ⟨stack, w, history⟩ :=
  ⟨hc.closed, fun f hf => hc.node_lt f (List.mem_cons_of_mem frame hf),
    fun f hf => hc.due_lt f (List.mem_cons_of_mem frame hf)⟩

theorem inRange_step (current : Lookahead) (hm : m.semantics.Local) {c : Config α} (hc : c.InRange) :
    (m.step current c).config.InRange := by
  obtain ⟨stack, w, history⟩ := c
  cases stack with
  | nil => exact hc
  | cons frame stack =>
    rw [step]
    generalize ho : m.performAll _ _ = o
    obtain ⟨r, c₁⟩ := o
    obtain ⟨hc₁, hsize⟩ := inRange_performAll hm (inRange_pop hc) ho
    cases r with
    | ok => exact inRange_visit hm hc₁ (hsize ▸ hc.node_lt frame List.mem_cons_self)
    | error f => exact hc₁

/-! ## Actions -/

/-- In the step from a configuration the machine runs an action at a node in this workspace: one
that was due before the node on top, or the opening action of the production that expands it. -/
inductive Performs (m : Machine α) (current : Lookahead) : Config α → α → Nat → Workspace → Prop
  | due {frame : Frame α} {stack : List (Frame α)} {w : Workspace} {history : List (Event α)}
      {before after : List (α × Nat)} {action : α} {id : Nat} {c : Config α}
      (hdue : frame.due = before ++ (action, id) :: after)
      (h : m.performAll before ⟨stack, w, history⟩ = (.ok (), c)) :
      Performs m current ⟨frame :: stack, w, history⟩ action id c.workspace
  | opening {frame : Frame α} {stack : List (Frame α)} {w : Workspace} {history : List (Event α)}
      {c : Config α} {nt i : Nat} {p : Production α} {action : α}
      (h : m.performAll frame.due ⟨stack, w, history⟩ = (.ok (), c))
      (hsign : c.workspace.tree.sign? frame.node = some (.nonTerminal nt))
      (hi : current.sign.bind (m.table.get? nt) = some i)
      (hp : m.grammar.productions[i]? = some p) (hslots : p.slots.length = p.right.length)
      (haction : p.opening = some action) :
      Performs m current ⟨frame :: stack, w, history⟩ action frame.node c.workspace

/-- An action that runs finds its own node and all that it looks at from there. -/
theorem Performs.sees_lt (hm : m.semantics.Local) {c : Config α} {action : α} {id : Nat}
    {w : Workspace} (h : m.Performs current c action id w) (hc : c.InRange) {id' : Nat}
    (hs : w.tree.Sees id id') : id' < w.tree.size := by
  cases h with
  | due hdue h =>
    obtain ⟨hc₁, hsize⟩ := inRange_performAll hm (inRange_pop hc) h
    refine hc₁.closed.sees_lt (hsize ▸ ?_) hs
    exact hc.due_lt _ List.mem_cons_self (action, id) (by rw [hdue]; simp)
  | opening h =>
    obtain ⟨hc₁, hsize⟩ := inRange_performAll hm (inRange_pop hc) h
    exact hc₁.closed.sees_lt (hsize ▸ hc.node_lt _ List.mem_cons_self) hs

/-! ## Runs -/

/-- The loop comes to a configuration, with the rest of the input before it. -/
inductive Reaches (m : Machine α) (tokens : List Token) (pool : Pool) :
    List Lookahead → Config α → Prop
  | start : Reaches m tokens pool (tokens.map (Lookahead.ofToken m.grammar)) (m.start pool)
  | moved {rest : List Lookahead} {c c' : Config α} (h : Reaches m tokens pool rest c)
      (hs : m.step (rest.headD (Lookahead.atEnd tokens)) c = .moved c') :
      Reaches m tokens pool rest c'
  | taken {current : Lookahead} {rest : List Lookahead} {c c' : Config α}
      (h : Reaches m tokens pool (current :: rest) c) (hs : m.step current c = .taken c') :
      Reaches m tokens pool rest c'

/-- All that the next step goes by is there: the nodes on the stack with the rows of their signs,
the production of every cell, what the actions look at, and a token where one is taken. -/
structure Safe (m : Machine α) (last : Lookahead) (rest : List Lookahead) (c : Config α) :
    Prop where
  inRange : c.InRange
  row_lt : ∀ frame ∈ c.stack, ∀ nt, c.workspace.tree.sign? frame.node = some (.nonTerminal nt) →
    nt < m.table.rows.length
  production_lt : ∀ nt i, (rest.headD last).sign.bind (m.table.get? nt) = some i →
    i < m.grammar.productions.length
  sees_lt : ∀ action id w, m.Performs (rest.headD last) c action id w → ∀ id', w.tree.Sees id id' →
    id' < w.tree.size
  token : ∀ c', m.step (rest.headD last) c = .taken c' → rest ≠ []
  not_astray : ∀ c', m.step (rest.headD last) c ≠ .ended .astray c'

/-- What every configuration of a run satisfies. -/
structure Guarded (m : Machine α) (c : Config α) : Prop where
  inRange : c.InRange
  stocked : ∃ u, Shows c u ∧ Outline.Stocked m.grammar u

theorem guarded_step (current : Lookahead) (hm : m.semantics.Local) (hg : m.grammar.Valid)
    (ht : m.table.Fits m.grammar) {c : Config α} (hc : m.Guarded c) :
    match m.step current c with
    | .moved c' => m.Guarded c'
    | .taken c' => m.Guarded c' ∧ current.sign ≠ some .pound
    | .ended verdict _ => verdict ≠ .astray := by
  obtain ⟨u, hu, hstocked⟩ := hc.stocked
  have hrange := inRange_step current hm hc.inRange
  rcases step_cases hm current hu with hagrees | ⟨f, c', hs, -⟩
  · rcases Outline.step_moves_or_stops current hg ht hstocked with
      ⟨u', hs, hu'⟩ | hstops
    · rw [hs] at hagrees
      obtain ⟨c', hs, hshows⟩ := hagrees
      rw [hs] at hrange ⊢
      exact ⟨hrange, u', hshows, hu'⟩
    · revert hagrees
      generalize Outline.step m.grammar m.table current u = outcome at hstops
      cases hstops with
      | taken hu' hne =>
        rintro ⟨c', hs, hshows⟩
        rw [hs] at hrange ⊢
        exact ⟨⟨hrange, _, hshows, hu'⟩, hne⟩
      | accepted =>
        rintro ⟨c', hs⟩
        simp [hs]
      | rejected f =>
        rintro ⟨c', hs⟩
        simp [hs]
  · simp [hs]

theorem guarded_advance (current : Lookahead) (hm : m.semantics.Local) (hg : m.grammar.Valid)
    (ht : m.table.Fits m.grammar) (bound : Nat) {c : Config α} (hc : m.Guarded c) :
    match m.advance current bound c with
    | .moved c' => m.Guarded c'
    | .taken c' => m.Guarded c' ∧ current.sign ≠ some .pound
    | .ended verdict _ => verdict ≠ .astray := by
  induction bound generalizing c with
  | zero => exact nofun
  | succ bound ih =>
    have hstep := guarded_step current hm hg ht hc
    rw [advance]
    revert hstep
    cases m.step current c with
    | moved c' => exact ih
    | taken c' => exact fun hstep => hstep
    | ended v c' => exact fun hstep => hstep

theorem goOn_ne_astray (hm : m.semantics.Local) (hg : m.grammar.Valid)
    (ht : m.table.Fits m.grammar) {last : Lookahead} (hlast : last.sign = some .pound)
    (patience : Nat) (rest : List Lookahead) {c : Config α} (hc : m.Guarded c) :
    (m.goOn patience last rest c).1 ≠ .astray := by
  induction rest generalizing c with
  | nil =>
    have hadvance := guarded_advance last hm hg ht (c.stack.length * patience + 1) hc
    rw [goOn]
    revert hadvance
    cases m.advance last (c.stack.length * patience + 1) c with
    | moved c' => simp
    | taken c' => exact fun hadvance => absurd hlast hadvance.2
    | ended v c' => exact fun hadvance => hadvance
  | cons current rest ih =>
    have hadvance := guarded_advance current hm hg ht (c.stack.length * patience + 1) hc
    rw [goOn]
    revert hadvance
    cases m.advance current (c.stack.length * patience + 1) c with
    | moved c' => simp
    | taken c' => exact fun hadvance => ih hadvance.1
    | ended v c' => exact fun hadvance => hadvance

theorem guarded_start (hg : m.grammar.Valid) (pool : Pool) : m.Guarded (m.start pool) :=
  ⟨inRange_start m pool, _, shows_start m pool, _, rfl, hg.fits_start⟩

/-- A run never looks for what is not there. -/
theorem run_ne_astray (hm : m.semantics.Local) (hg : m.grammar.Valid)
    (ht : m.table.Fits m.grammar) (tokens : List Token) (pool : Pool) :
    (m.run tokens pool).verdict ≠ .astray :=
  goOn_ne_astray hm hg ht rfl m.patience _ (guarded_start hg pool)

theorem Reaches.guarded (hm : m.semantics.Local) (hg : m.grammar.Valid)
    (ht : m.table.Fits m.grammar) {tokens : List Token} {pool : Pool} {rest : List Lookahead}
    {c : Config α} (h : m.Reaches tokens pool rest c) : m.Guarded c := by
  induction h with
  | start => exact guarded_start hg pool
  | @moved rest c c' _ hs ih =>
    have hstep := guarded_step (rest.headD (Lookahead.atEnd tokens)) hm hg ht ih
    rw [hs] at hstep
    exact hstep
  | @taken current rest c c' _ hs ih =>
    have hstep := guarded_step current hm hg ht ih
    rw [hs] at hstep
    exact hstep.1

theorem Reaches.safe (hm : m.semantics.Local) (hg : m.grammar.Valid)
    (ht : m.table.Fits m.grammar) {tokens : List Token} {pool : Pool} {rest : List Lookahead}
    {c : Config α} (h : m.Reaches tokens pool rest c) :
    m.Safe (Lookahead.atEnd tokens) rest c := by
  have hc := h.guarded hm hg ht
  have hstep := guarded_step (rest.headD (Lookahead.atEnd tokens)) hm hg ht hc
  refine ⟨hc.inRange, ?_, ?_, fun action id w hp id' hs => hp.sees_lt hm hc.inRange hs, ?_, ?_⟩
  · intro frame hf nt hsign
    obtain ⟨u, hshows, v, rfl, hv⟩ := hc.stocked
    have hmem : c.workspace.tree.sign? frame.node ∈ (v ++ [Sign.pound]).map some :=
      hshows.signs ▸ List.mem_map_of_mem hf
    rw [hsign] at hmem
    have hv' : Sign.nonTerminal nt ∈ v := by simpa using hmem
    exact ht.rows_length ▸ Grammar.fits_nonTerminal.mp (hv _ hv')
  · intro nt i hi
    obtain ⟨x, -, hi⟩ := Option.bind_eq_some_iff.mp hi
    obtain ⟨p, hp, -⟩ := ht.chosen nt x i hi
    exact (List.getElem?_eq_some_iff.mp hp).1
  · rintro c' hs rfl
    rw [hs] at hstep
    exact hstep.2 rfl
  · intro c' hs
    rw [hs] at hstep
    exact hstep rfl

end Machine

end PredictiveParsing
