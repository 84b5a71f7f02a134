import PredictiveParsing.Proofs.Parse.Errands
import PredictiveParsing.Proofs.Parse.Walk

/-!
# What a step does

All that a step can do, for actions that change nothing of the tree but attributes: actions run one
after the other, up to one that fails (`Acted`, `acted_performAll`), and a node is visited
(`Visited`). `stepped_step` says that there is no other way for a step to go.

What happened before is read off the history: by which production a node was expanded (`planOf`),
which actions ran (`actionsOf`), and which nodes took the tokens (`takersOf`).
-/

namespace PredictiveParsing

variable {α : Type}

/-- Actions change nothing of the tree but attributes, of whichever nodes. -/
def Semantics.Attributive (s : Semantics α) : Prop :=
  ∀ action id effect, s action id = some effect → ∀ w, (effect w).2.tree.bare = w.tree.bare

theorem Semantics.Local.attributive {s : Semantics α} (hs : s.Local) : s.Attributive := by
  intro action id effect he w
  obtain ⟨attrs, ht⟩ := hs action id effect he w
  rw [ht, Tree.bare_setAttrs]

/-- A node with the sign takes a token, or ends the parse. -/
def Sign.matched : Sign → Bool
  | terminal _ => true
  | pound => true
  | nonTerminal _ => false
  | empty => false

/-- The node takes a token, or ends the parse, when it is visited. -/
def Tree.takes (t : Tree) (id : Nat) : Bool := (t.sign? id).any Sign.matched

theorem Tree.takes_of_sign? {t : Tree} {id : Nat} {s : Sign} (h : t.sign? id = some s) :
    t.takes id = s.matched := by
  rw [takes, h, Option.any_some]

theorem Tree.sign?_ne_of_takes {t : Tree} {id : Nat} (h : t.takes id = true) (nt : Nat) :
    t.sign? id ≠ some (.nonTerminal nt) := by
  intro hsign
  rw [takes_of_sign? hsign] at h
  cases h

theorem Tree.takes_eq_of_bare {t t' : Tree} (h : t'.bare = t.bare) : t'.takes = t.takes := by
  funext id
  rw [takes, sign?_eq_of_bare h, takes]

/-- The configuration from which a run goes on. -/
def Outcome.next? : Outcome α → Option (Config α)
  | moved c => some c
  | taken c => some c
  | ended _ _ => none

/-! ## What a history tells -/

namespace Event

def expansion? (id : Nat) : Event α → Option Nat
  | expanded id' index _ => if id' = id then some index else none
  | took _ => none
  | ran .. => none

def action? : Event α → Option (α × Nat)
  | ran action id _ => some (action, id)
  | expanded .. => none
  | took _ => none

def taker? : Event α → Option Nat
  | took id => some id
  | expanded .. => none
  | ran .. => none

end Event

/-- The production by which a node was expanded, the last time when there are more. -/
def Grammar.planOf (g : Grammar α) (history : List (Event α)) (id : Nat) : Option (Production α) :=
  (history.findSome? (Event.expansion? id)).bind fun index => g.productions[index]?

/-- The actions that ran and their nodes, in order; the history has the last event first. -/
def actionsOf (history : List (Event α)) : List (α × Nat) := history.reverse.filterMap Event.action?

/-- The nodes that took the tokens, in order. -/
def takersOf (history : List (Event α)) : List Nat := history.reverse.filterMap Event.taker?

section Histories

variable (history : List (Event α)) (id : Nat)

theorem Grammar.planOf_expanded {g : Grammar α} {p : Production α} {index : Nat}
    (hp : g.productions[index]? = some p) (line id' : Nat) :
    g.planOf (.expanded id index line :: history) id' =
      if id' = id then some p else g.planOf history id' := by
  rw [planOf, List.findSome?_cons, Event.expansion?]
  by_cases h : id = id'
  · rw [if_pos h, if_pos h.symm]
    exact hp
  · rw [if_neg h, if_neg (Ne.symm h)]
    rfl

theorem actionsOf_took : actionsOf (.took id :: history) = actionsOf history := by
  simp [actionsOf, Event.action?]

theorem actionsOf_expanded (index line : Nat) :
    actionsOf (.expanded id index line :: history) = actionsOf history := by
  simp [actionsOf, Event.action?]

theorem actionsOf_ran (action : α) (size : Nat) :
    actionsOf (.ran action id size :: history) = actionsOf history ++ [(action, id)] := by
  simp [actionsOf, Event.action?]

theorem takersOf_took : takersOf (.took id :: history) = takersOf history ++ [id] := by
  simp [takersOf, Event.taker?]

theorem takersOf_expanded (index line : Nat) :
    takersOf (.expanded id index line :: history) = takersOf history := by
  simp [takersOf, Event.taker?]

theorem takersOf_ran (action : α) (size : Nat) :
    takersOf (.ran action id size :: history) = takersOf history := by
  simp [takersOf, Event.taker?]

end Histories

namespace Machine

variable {m : Machine α}

/-! ## Actions -/

/-- Between the two configurations nothing happened but actions. -/
structure Acted (c c' : Config α) : Prop where
  stack : c'.stack = c.stack
  bare : c'.workspace.tree.bare = c.workspace.tree.bare
  plan : ∀ g : Grammar α, g.planOf c'.history = g.planOf c.history
  takers : takersOf c'.history = takersOf c.history

theorem Acted.refl (c : Config α) : Acted c c := ⟨rfl, rfl, fun _ => rfl, rfl⟩

theorem Acted.trans {c c' c'' : Config α} (h : Acted c c') (h' : Acted c' c'') : Acted c c'' :=
  ⟨h'.stack.trans h.stack, h'.bare.trans h.bare, fun g => (h'.plan g).trans (h.plan g),
    h'.takers.trans h.takers⟩

/-- The action of some machine fails at the node and leaves this workspace. -/
def FailsIn (m : Machine α) (action : α) (id : Nat) (f : Failure) (w : Workspace) : Prop :=
  ∃ effect w₁, m.semantics action id = some effect ∧ effect w₁ = (.error f, w)

theorem acted_perform (hm : m.semantics.Attributive) {action : α} {id : Nat} {c c' : Config α}
    {r : Except Failure Unit} (h : m.perform action id c = (r, c')) :
    Acted c c' ∧
      actionsOf c'.history =
        actionsOf c.history ++ Errand.actions m.semantics (ofDue [(action, id)]) ∧
      ∀ f, r = .error f → m.FailsIn action id f c'.workspace := by
  rw [perform] at h
  split at h
  next he =>
    cases h
    exact ⟨.refl c, by simp [ofDue, Errand.actions, Errand.action?, he], by simp⟩
  next effect he =>
    cases h
    refine ⟨⟨rfl, hm action id effect he c.workspace, fun _ => rfl, takersOf_ran ..⟩, ?_, ?_⟩
    · rw [actionsOf_ran]
      simp [ofDue, Errand.actions, Errand.action?, he]
    · exact fun f hf => ⟨effect, c.workspace, he, Prod.ext hf rfl⟩

/-- Actions run in their order up to one that fails. -/
theorem acted_performAll (hm : m.semantics.Attributive) {due : List (α × Nat)} {c c' : Config α}
    {r : Except Failure Unit} (h : m.performAll due c = (r, c')) :
    Acted c c' ∧
      match r with
      | .ok () =>
          actionsOf c'.history = actionsOf c.history ++ Errand.actions m.semantics (ofDue due)
      | .error f => ∃ before action id after, due = before ++ (action, id) :: after ∧
          actionsOf c'.history = actionsOf c.history ++
            Errand.actions m.semantics (ofDue (before ++ [(action, id)])) ∧
          m.FailsIn action id f c'.workspace := by
  induction due generalizing c with
  | nil =>
    cases h
    exact ⟨.refl _, (List.append_nil _).symm⟩
  | cons head due ih =>
    obtain ⟨action, id⟩ := head
    have hcons : ∀ due', Errand.actions m.semantics (ofDue ((action, id) :: due')) =
        Errand.actions m.semantics (ofDue [(action, id)]) ++
          Errand.actions m.semantics (ofDue due') := fun due' =>
      Errand.actions_append m.semantics (ofDue [(action, id)]) (ofDue due')
    rw [performAll] at h
    split at h
    next c₁ he =>
      obtain ⟨hacted, hactions, -⟩ := acted_perform hm he
      obtain ⟨hacted', hrest⟩ := ih h
      refine ⟨hacted.trans hacted', ?_⟩
      cases r with
      | ok =>
        rw [hrest, hactions, hcons due, List.append_assoc]
      | error f =>
        obtain ⟨before, action', id', after, rfl, hactions', hfails⟩ := hrest
        refine ⟨(action, id) :: before, action', id', after, rfl, ?_, hfails⟩
        rw [hactions', hactions, List.cons_append, hcons (before ++ [(action', id')]),
          List.append_assoc]
    next f c₁ he =>
      cases h
      obtain ⟨hacted, hactions, hfails⟩ := acted_perform hm he
      exact ⟨hacted, [], action, id, due, rfl, hactions, hfails f rfl⟩

/-! ## Visits -/

section Visits

variable {current : Lookahead} {id : Nat} {c : Config α}

theorem visit_of_none (hsign : c.workspace.tree.sign? id = none) :
    m.visit current id c = .ended .astray c := by
  have hnode : (c.workspace.tree.node? id).map Node.sign = none := hsign
  rw [visit, hnode]

theorem visit_of_empty (hsign : c.workspace.tree.sign? id = some .empty) :
    m.visit current id c = .moved c := by
  have hnode : (c.workspace.tree.node? id).map Node.sign = some .empty := hsign
  rw [visit, hnode]

theorem visit_of_blank {nt : Nat} (hsign : c.workspace.tree.sign? id = some (.nonTerminal nt))
    (hcell : current.sign.bind (m.table.get? nt) = none) :
    m.visit current id c = .ended (.rejected current.failure) c := by
  have hnode : (c.workspace.tree.node? id).map Node.sign = some (.nonTerminal nt) := hsign
  simp only [visit, hnode, hcell]

theorem visit_of_cell {nt index : Nat}
    (hsign : c.workspace.tree.sign? id = some (.nonTerminal nt))
    (hcell : current.sign.bind (m.table.get? nt) = some index) :
    m.visit current id c = m.expand current id index c := by
  have hnode : (c.workspace.tree.node? id).map Node.sign = some (.nonTerminal nt) := hsign
  simp only [visit, hnode, hcell]

theorem visit_of_matched {s : Sign} (hsign : c.workspace.tree.sign? id = some s)
    (hs : s.matched = true) :
    m.visit current id c =
      if current.sign = some s then
        if id = sentinel then .ended .accepted c else .taken (take current id c)
      else .ended (.rejected current.failure) c := by
  have hnode : (c.workspace.tree.node? id).map Node.sign = some s := hsign
  rw [visit, hnode]
  cases s with
  | terminal i => rfl
  | pound => rfl
  | nonTerminal nt => cases hs
  | empty => cases hs

end Visits

/-- A node of the tree is refused: it is not the current token's, or there is no production for it,
or one that has not as many slots as signs. -/
inductive Declines (m : Machine α) (current : Lookahead) (t : Tree) (id : Nat) : Failure → Prop
  | mismatch {s : Sign} (hsign : t.sign? id = some s) (hs : s.matched = true)
      (hne : current.sign ≠ some s) : Declines m current t id current.failure
  | blank {nt : Nat} (hsign : t.sign? id = some (.nonTerminal nt))
      (hcell : current.sign.bind (m.table.get? nt) = none) :
      Declines m current t id current.failure
  | arity {nt index : Nat} {p : Production α} (hsign : t.sign? id = some (.nonTerminal nt))
      (hcell : current.sign.bind (m.table.get? nt) = some index)
      (hp : m.grammar.productions[index]? = some p) (hslots : p.slots.length ≠ p.right.length) :
      Declines m current t id (.arity (m.grammar.textOf p))

/-- The table has the production for the node in a cell of its row. -/
def Offers (m : Machine α) (t : Tree) (id : Nat) (p : Production α) : Prop :=
  ∃ nt x index, t.sign? id = some (.nonTerminal nt) ∧ m.table.get? nt x = some index ∧
    m.grammar.productions[index]? = some p

/-- What the visit of a node can lead to. -/
inductive Visited (m : Machine α) (current : Lookahead) (id : Nat) (c : Config α) :
    Outcome α → Prop
  | astray : Visited m current id c (.ended .astray c)
  | passed (hsign : c.workspace.tree.sign? id = some .empty) : Visited m current id c (.moved c)
  | declined {f : Failure} (h : m.Declines current c.workspace.tree id f) :
      Visited m current id c (.ended (.rejected f) c)
  | expanded {index : Nat} {p : Production α} {c₁ : Config α}
      (hoffers : m.Offers c.workspace.tree id p) (hp : m.grammar.productions[index]? = some p)
      (hslots : p.slots.length = p.right.length)
      (hopening : m.performAll (p.opening.toList.map fun action => (action, id))
        { c with history := .expanded id index current.line :: c.history } = (.ok (), c₁)) :
      Visited m current id c (.moved (branch p id c₁))
  | failed {index : Nat} {p : Production α} {f : Failure} {c₁ : Config α}
      (hoffers : m.Offers c.workspace.tree id p) (hp : m.grammar.productions[index]? = some p)
      (hopening : m.performAll (p.opening.toList.map fun action => (action, id))
        { c with history := .expanded id index current.line :: c.history } = (.error f, c₁)) :
      Visited m current id c (.ended (.rejected f) c₁)
  | taken {s : Sign} (hsign : c.workspace.tree.sign? id = some s) (hs : s.matched = true)
      (hcurrent : current.sign = some s) (hid : id ≠ sentinel) :
      Visited m current id c (.taken (take current id c))
  | accepted {s : Sign} (hsign : c.workspace.tree.sign? id = some s)
      (hcurrent : current.sign = some s) (hid : id = sentinel) :
      Visited m current id c (.ended .accepted c)

theorem visited_of_matched {current : Lookahead} {id : Nat} {c : Config α} {s : Sign}
    (hsign : c.workspace.tree.sign? id = some s) (hs : s.matched = true) :
    m.Visited current id c (m.visit current id c) := by
  rw [visit_of_matched hsign hs]
  by_cases hcurrent : current.sign = some s
  · by_cases hid : id = sentinel
    · rw [if_pos hcurrent, if_pos hid]
      exact .accepted hsign hcurrent hid
    · rw [if_pos hcurrent, if_neg hid]
      exact .taken hsign hs hcurrent hid
  · rw [if_neg hcurrent]
    exact .declined (.mismatch hsign hs hcurrent)

theorem visited_of_nonTerminal {current : Lookahead} {id : Nat} {c : Config α} {nt : Nat}
    (hsign : c.workspace.tree.sign? id = some (.nonTerminal nt)) :
    m.Visited current id c (m.visit current id c) := by
  cases hcell : current.sign.bind (m.table.get? nt) with
  | none =>
    rw [visit_of_blank hsign hcell]
    exact .declined (.blank hsign hcell)
  | some index =>
    rw [visit_of_cell hsign hcell, expand]
    cases hp : m.grammar.productions[index]? with
    | none => exact .astray
    | some p =>
      obtain ⟨x, -, hx⟩ := Option.bind_eq_some_iff.mp hcell
      have hoffers : m.Offers c.workspace.tree id p := ⟨nt, x, index, hsign, hx, hp⟩
      by_cases hslots : p.slots.length = p.right.length
      · simp only [if_pos hslots]
        rcases hopening : m.performAll (p.opening.toList.map fun action => (action, id))
          { c with history := .expanded id index current.line :: c.history } with ⟨f | _, c₁⟩
        · exact .failed hoffers hp hopening
        · exact .expanded hoffers hp hslots hopening
      · simp only [if_neg hslots]
        exact .declined (.arity hsign hcell hp hslots)

theorem visited_visit (m : Machine α) (current : Lookahead) (id : Nat) (c : Config α) :
    m.Visited current id c (m.visit current id c) := by
  cases hsign : c.workspace.tree.sign? id with
  | none =>
    rw [visit_of_none hsign]
    exact .astray
  | some s =>
    cases s with
    | terminal i => exact visited_of_matched hsign rfl
    | pound => exact visited_of_matched hsign rfl
    | nonTerminal nt => exact visited_of_nonTerminal hsign
    | empty =>
      rw [visit_of_empty hsign]
      exact .passed hsign

/-! ## Steps -/

/-- What a step can lead to: an action that is due fails, or the node on top is visited. -/
inductive Stepped (m : Machine α) (current : Lookahead) : Config α → Outcome α → Prop
  | blank (w : Workspace) (history : List (Event α)) :
      Stepped m current ⟨[], w, history⟩ (.ended (.rejected current.failure) ⟨[], w, history⟩)
  | due {frame : Frame α} {stack : List (Frame α)} {w : Workspace} {history : List (Event α)}
      {f : Failure} {c₁ : Config α}
      (hdue : m.performAll frame.due ⟨stack, w, history⟩ = (.error f, c₁)) :
      Stepped m current ⟨frame :: stack, w, history⟩ (.ended (.rejected f) c₁)
  | visited {frame : Frame α} {stack : List (Frame α)} {w : Workspace} {history : List (Event α)}
      {c₁ : Config α} {o : Outcome α}
      (hdue : m.performAll frame.due ⟨stack, w, history⟩ = (.ok (), c₁))
      (hvisited : m.Visited current frame.node c₁ o) :
      Stepped m current ⟨frame :: stack, w, history⟩ o

theorem stepped_step (m : Machine α) (current : Lookahead) (c : Config α) :
    m.Stepped current c (m.step current c) := by
  obtain ⟨stack, w, history⟩ := c
  cases stack with
  | nil => exact .blank w history
  | cons frame stack =>
    rw [step]
    rcases hdue : m.performAll frame.due ⟨stack, w, history⟩ with ⟨f | _, c₁⟩
    · exact .due hdue
    · exact .visited hdue (visited_visit m current frame.node c₁)

end Machine

end PredictiveParsing
