import Mathlib.Tactic.MkIffOfInductiveProp
import PredictiveParsing.Proofs.Cminus.Changes
import PredictiveParsing.Proofs.Cminus.Judgements
import PredictiveParsing.Proofs.Cminus.Legality
import PredictiveParsing.Proofs.Parse.Deeds
import PredictiveParsing.Proofs.Tree.Tours

/-!
# How a call gets its name

A name is taken at an identifier, passed to the node behind it, and inherited by the call below that
node. Once it is there it stays: no other action writes the name of such a node, and the identifier
takes no second token.

* `passed_of_did`, `inherited_of_did`: the name at a node, and the identifier that it comes from;
* `called_of_did`: a call that was resolved names a function of the pool.
-/

namespace PredictiveParsing.Cminus

open Errand
open Sign (terminal nonTerminal)

/-- The machine of the compiler with any table. -/
abbrev machineWith (t : Table) : Machine Action := ⟨resolved, t, semantics⟩

/-- An action that does not fail makes the change that it decides on. -/
theorem exists_change {action : Action} {id : Nat} {w w' : Workspace}
    (h : semantics.at (some action) id w = (.ok (), w')) :
    ∃ change, action.judge (Site.of w id) = .ok change ∧ w' = change.commit id w := by
  have heffect : action.effect id w = (.ok (), w') := h
  rw [Action.effect_eq] at heffect
  split at heffect
  next change hjudge =>
    cases heffect
    exact ⟨change, hjudge, rfl⟩
  next => cases heffect

theorem attrs_commit {w : Workspace} {id : Nat} (hid : id < w.tree.size) (change : Change) :
    (change.commit id w).tree.attrs id = change.attrs := by
  rw [Change.commit, Tree.attrs_setAttrs hid, if_pos rfl]

section Site

variable {w : Workspace} {id x : Nat}

theorem Site.child?_of {i : Nat} (h : w.tree.child? id i = some x) :
    (Site.of w id).child? i = some (w.tree.attrs x) := by
  show (w.tree.child? id i).map w.tree.attrs = _
  rw [h, Option.map_some]

theorem Site.sibling?_of {back : Nat} (h : w.tree.sibling? id back = some x) :
    (Site.of w id).sibling? back = some (w.tree.attrs x) := by
  show (w.tree.sibling? id back).map w.tree.attrs = _
  rw [h, Option.map_some]

theorem Site.parent?_of (h : w.tree.parent? id = some x) :
    (Site.of w id).parent? = some (w.tree.attrs x) := by
  show (w.tree.parent? id).map w.tree.attrs = _
  rw [h, Option.map_some]

end Site

/-! ## Places for actions -/

/-- The action that hands a name to a node: behind an identifier stand statements and factors, and
below these, calls. -/
def hands : Nat → Option Action
  | Place.normalStatementFollow => some .passId
  | Place.callFollow => some .inherit
  | Place.idFactorFollow => some .passId
  | _ => none

/-- The non-terminals that have a name handed to them. -/
def named : List Nat := [Place.normalStatementFollow, Place.callFollow, Place.idFactorFollow]

theorem mem_named {nt : Nat} {action : Action} (h : hands nt = some action) : nt ∈ named := by
  unfold hands at h
  split at h
  · decide
  · decide
  · decide
  · cases h

/-- The other actions at these nodes, which leave the name as it is. -/
def keepers : List Action := [.resolveVariable, .requireValue, .resolveCall, .checkCall]

theorem id_of_keepers {action : Action} (h : action ∈ keepers) (s : Site) :
    Ensures (action.judge s) fun change => change.attrs.id = s.own.id := by
  simp only [keepers, List.mem_cons, List.not_mem_nil, or_false] at h
  rcases h with rfl | rfl | rfl | rfl
  · exact ensures_bind fun _ _ => ensures_unless fun _ => ensures_ok rfl
  · refine ensures_bind fun child _ => ?_
    show Ensures (if _ then _ else _) _
    split
    · exact ensures_bind fun _ _ => ensures_bind fun _ _ => ensures_ok rfl
    · exact ensures_ok rfl
  · refine ensures_bind fun name _ => ?_
    split
    · exact ensures_ok rfl
    · exact ensures_refuse _ _
  · refine ensures_bind fun name _ => ensures_bind fun args _ => ensures_bind fun entry _ => ?_
    exact ensures_unless fun _ => ensures_ok rfl

/-- How a production deals with names. -/
@[mk_iff]
structure Names (p : Production Action) : Prop where
  /-- No action runs at a terminal. -/
  inner : ∀ post ∈ p.posts, post.2.isNonTerminal = true
  kept : ∀ post ∈ p.posts, ∀ nt ∈ named,
    post.2 = nonTerminal nt → hands nt = some post.1 ∨ post.1 ∈ keepers
  passed : ∀ post ∈ p.posts, post.1 = .passId →
    ∃ nt ∈ named, hands nt = some .passId ∧ post.2 = nonTerminal nt
  /-- Names are handed on before a child is visited, and only there. -/
  fills : ∀ action ∈ [Action.passId, .inherit],
    p.opening ≠ some action ∧ p.closing ≠ some action
  slots : ∀ i < p.right.length, ∀ nt ∈ named,
    p.right[i]? = some (nonTerminal nt) → (p.slots[i]?).join = hands nt
  /-- A name is passed on behind an identifier. -/
  behind : ∀ i < p.slots.length,
    (p.slots[i]?).join = some .passId → i = 1 ∧ p.right[0]? = some (terminal Place.id)

/-- How it deals with calls. -/
@[mk_iff]
structure CallsByName (p : Production Action) : Prop where
  /-- A call is the first child of a node to which a name was passed. -/
  first : ∀ i < p.right.length,
    p.right[i]? = some (nonTerminal Place.callFollow) → i = 0 ∧ hands p.left = some .passId
  /-- Calls are resolved when they are opened, and only there. -/
  opens : p.closing ≠ some .resolveCall ∧ some .resolveCall ∉ p.slots
  left : p.opening = some .resolveCall → p.left = Place.callFollow

instance : DecidablePred Names := fun p => decidable_of_iff _ (names_iff p).symm

instance : DecidablePred CallsByName := fun p => decidable_of_iff _ (callsByName_iff p).symm

theorem names_resolved : ∀ p ∈ resolved.productions, Names p := by decide +kernel

theorem callsByName_resolved : ∀ p ∈ resolved.productions, CallsByName p := by decide +kernel

theorem fills_name {action : Action} (h : action ∈ [Action.passId, .inherit]) :
    resolved.OnlyFills action :=
  fun p hp => (names_resolved p hp).fills action h

theorem opens_call : resolved.OnlyOpens .resolveCall :=
  fun p hp => (callsByName_resolved p hp).opens

/-- A function stays one, whatever is declared. -/
theorem isSome_calledFunction?_of_keeps {pool pool' : Pool} (h : pool.Keeps pool') {name : String}
    (hentry : (calledFunction? pool name).isSome) : (calledFunction? pool' name).isSome := by
  rw [calledFunction?] at hentry ⊢
  split at hentry
  next returns params scope hx =>
    obtain ⟨y, hy, hstays⟩ := h.functions.exists_query hx
    have hfunction : pool'.function? name = some y := hy
    rw [hfunction]
    cases y with
    | function => rfl
    | globalVar => cases hstays.offset?
    | localVar => cases hstays.offset?
  next => cases hentry

/-! ## Names of nodes -/

/-- The node stands behind an identifier that was taken, with the name as its text. -/
inductive Behind (done : List (Errand Action)) (t : Tree) (id : Nat) (name : String) : Prop
  | intro {parent token : Nat} (hid : t.place? id = some (parent, 1))
      (htoken : t.place? token = some (parent, 0))
      (hsign : t.sign? token = some (terminal Place.id)) (hdone : .visit token ∈ done)
      (hname : (t.attrs token).lexical = some name) : Behind done t id name

theorem Behind.unique {done : List (Errand Action)} {t : Tree} (ht : t.WellLinked) {id : Nat}
    {name name' : String} (h : Behind done t id name) (h' : Behind done t id name') :
    name = name' := by
  obtain @⟨parent, token, hid, htoken, -, -, hname⟩ := h
  obtain @⟨parent', token', hid', htoken', -, -, hname'⟩ := h'
  cases hid.symm.trans hid'
  have hchild := (ht.child?_eq_some_iff parent 0 token).mpr htoken
  have hchild' := (ht.child?_eq_some_iff parent 0 token').mpr htoken'
  cases hchild.symm.trans hchild'
  exact Option.some.inj (hname.symm.trans hname')

/-- The node is a call by that name: it stands first below a node behind the identifier. -/
inductive CallBy (done : List (Errand Action)) (t : Tree) (id : Nat) (name : String) : Prop
  | intro {parent : Nat} (hid : t.place? id = some (parent, 0))
      (hbehind : Behind done t parent name) : CallBy done t id name

theorem CallBy.unique {done : List (Errand Action)} {t : Tree} (ht : t.WellLinked) {id : Nat}
    {name name' : String} (h : CallBy done t id name) (h' : CallBy done t id name') :
    name = name' := by
  obtain ⟨hid, hbehind⟩ := h
  obtain ⟨hid', hbehind'⟩ := h'
  cases hid.symm.trans hid'
  exact hbehind.unique ht hbehind'

section Deed

variable {t : Table} {done ahead steps : List (Errand Action)} {e : Errand Action}
  {history : List (Event Action)} {w w' : Workspace} {id : Nat}

variable (ht : t.Fits resolved) (M : (machineWith t).Moment w.tree history done (e :: ahead))
  (hdeed : (machineWith t).Deed w (e :: steps) w')

include ht M hdeed

/-- The identifier keeps its text. -/
theorem Behind.next {name : String} (h : Behind done w.tree id name) :
    Behind (done ++ e :: steps) w'.tree id name := by
  obtain @⟨parent, token, hid, htoken, hsign, hdone, hname⟩ := h
  have hact : ∀ action, .act action token ∉ e :: steps := by
    intro action hact
    obtain ⟨p, hp, s, hs, hpost⟩ := M.post_of_deed hdeed ht hact
    cases hsign.symm.trans hs
    cases (names_resolved p hp).inner _ hpost
  have hattrs := hdeed.attrs_eq local_semantics (Tree.lt_size_of_sign? hsign) hact
    fun hmem => absurd hmem (M.visit_not_mem hdeed hdone)
  exact ⟨hdeed.place? local_semantics hid, hdeed.place? local_semantics htoken,
    hdeed.sign? local_semantics hsign, List.mem_append_left _ hdone, hattrs ▸ hname⟩

theorem CallBy.next {name : String} (h : CallBy done w.tree id name) :
    CallBy (done ++ e :: steps) w'.tree id name := by
  obtain ⟨hid, hbehind⟩ := h
  exact ⟨hdeed.place? local_semantics hid, hbehind.next ht M hdeed⟩

/-- A node keeps its name, unless one is handed to it once more. -/
theorem id_eq_of_named {nt : Nat} (hsign : w.tree.sign? id = some (nonTerminal nt))
    {action : Action} (hhands : hands nt = some action) (hnew : .act action id ∉ e :: steps) :
    (w'.tree.attrs id).id = (w.tree.attrs id).id := by
  have hid := Tree.lt_size_of_sign? hsign
  by_cases hmem : ∃ action, .act action id ∈ e :: steps
  · obtain ⟨action', hmem⟩ := hmem
    obtain ⟨p, hp, s, hs, hpost⟩ := M.post_of_deed hdeed ht hmem
    cases hsign.symm.trans hs
    have hkeeper : action' ∈ keepers := by
      have hkept := (names_resolved p hp).kept _ hpost nt (mem_named hhands) rfl
      refine hkept.resolve_left fun hsame => hnew ?_
      cases hhands.symm.trans hsame
      exact hmem
    obtain ⟨w₁, hat, -, hattrs⟩ := hdeed.ran local_semantics hmem
    obtain ⟨change, hjudge, rfl⟩ := exists_change hat
    rw [hattrs hid, attrs_commit hid]
    exact id_of_keepers hkeeper _ change hjudge
  · rw [hdeed.attrs_eq local_semantics hid (not_exists.mp hmem) fun _ => ⟨nt, hsign⟩]

end Deed

/-! ## Passing a name -/

/-- The name that was passed to a node is the text of the identifier before it. -/
def Passed (done : List (Errand Action)) (w : Workspace) : Prop :=
  ∀ id, .act .passId id ∈ done →
    ∃ name, Behind done w.tree id name ∧ (w.tree.attrs id).id = some name

/-- The name that a call has is the one that was passed to its parent. -/
def Inherited (done : List (Errand Action)) (w : Workspace) : Prop :=
  ∀ id, .act .inherit id ∈ done → w.tree.sign? id = some (nonTerminal Place.callFollow) →
    ∃ name, CallBy done w.tree id name ∧ (w.tree.attrs id).id = some name

/-- There is a function with the name of a call that was resolved. -/
def Called (done : List (Errand Action)) (w : Workspace) : Prop :=
  ∀ id, .act .resolveCall id ∈ done →
    ∃ name, CallBy done w.tree id name ∧ (calledFunction? w.pool name).isSome

section Did

variable {t : Table} {pool : Pool} {done ahead steps : List (Errand Action)} {e : Errand Action}
  {history : List (Event Action)} {w w' : Workspace} {id : Nat}

variable (ht : t.Fits resolved)

include ht

/-- The identifier whose name is passed on was visited before. -/
theorem exists_identifier
    (M : (machineWith t).Moment w.tree history done (.act .passId id :: ahead)) :
    ∃ parent token, w.tree.place? id = some (parent, 1) ∧ w.tree.place? token = some (parent, 0) ∧
      w.tree.sign? token = some (terminal Place.id) ∧ .visit token ∈ done := by
  obtain ⟨p, hp, parent, i, hplan, hchild, hslot, -, hsiblings⟩ :=
    M.of_slots ht rfl (fills_name (by decide))
  have hi := (List.getElem?_eq_some_iff.mp (Option.join_eq_some_iff.mp hslot)).1
  obtain ⟨rfl, hright⟩ := (names_resolved p hp).behind i hi hslot
  obtain ⟨token, htoken, hsign⟩ := M.exists_child hplan hright
  have hplace := M.rooted.child?_eq_some_iff
  exact ⟨parent, token, (hplace parent 1 id).mp hchild, (hplace parent 0 token).mp htoken, hsign,
    hsiblings 0 Nat.zero_lt_one token htoken⟩

theorem passed_of_at
    (M : (machineWith t).Moment w.tree history done (.act .passId id :: ahead))
    (hat : semantics.at (some .passId) id w = (.ok (), w')) :
    ∃ name, Behind done w.tree id name ∧ (w'.tree.attrs id).id = some name := by
  obtain ⟨parent, token, hid, htoken, hsign, hdone⟩ := exists_identifier ht M
  have hsibling : w.tree.sibling? id 1 = some token := by
    rw [Tree.sibling?_eq hid, if_pos (Nat.le_refl 1)]
    exact (M.rooted.child?_eq_some_iff parent 0 token).mpr htoken
  obtain ⟨change, hjudge, rfl⟩ := exists_change hat
  rw [Action.judge, Site.sibling_eq (Site.sibling?_of hsibling), ok_bind] at hjudge
  cases htext : (w.tree.attrs token).lexical with
  | none =>
    rw [textOf, htext] at hjudge
    cases hjudge
  | some name =>
    rw [textOf_eq htext, ok_bind] at hjudge
    cases hjudge
    refine ⟨name, ⟨hid, htoken, hsign, hdone, htext⟩, ?_⟩
    rw [attrs_commit (Tree.lt_size_of_place? hid)]

theorem passed_of_did (D : (machineWith t).Did pool done w) : Passed done w := by
  induction D with
  | start => exact fun _ h => absurd h List.not_mem_nil
  | @next done ahead steps e history w w' _ M hdeed ih =>
    intro id hid
    by_cases hnew : .act .passId id ∈ e :: steps
    · obtain ⟨rfl, hat⟩ := hdeed.eq_act ht hnew fun p hp => (fills_name (by decide) p hp).1
      obtain ⟨name, hbehind, hname⟩ := passed_of_at ht M hat
      exact ⟨name, hbehind.next ht M hdeed, hname⟩
    · have hold := (List.mem_append.mp hid).resolve_right hnew
      obtain ⟨name, hbehind, hname⟩ := ih id hold
      obtain ⟨p, hp, s, hsign, hpost⟩ := M.post ht (List.mem_append_left _ hold)
      obtain ⟨nt, -, hhands, rfl⟩ := (names_resolved p hp).passed _ hpost rfl
      refine ⟨name, hbehind.next ht M hdeed, ?_⟩
      rw [id_eq_of_named ht M hdeed hsign hhands hnew, hname]

/-! ## Inheriting it -/

/-- A name is handed to a node before it is visited. -/
theorem handed_before (M : (machineWith t).Moment w.tree history done ahead)
    {before after : List (Errand Action)} (h : done ++ ahead = before ++ .visit id :: after)
    {nt : Nat} (hsign : w.tree.sign? id = some (nonTerminal nt)) {action : Action}
    (hhands : hands nt = some action) : .act action id ∈ before := by
  have hstart : nonTerminal nt ≠ nonTerminal resolved.start := by
    rintro ⟨⟩
    cases hhands
  obtain ⟨p, hp, parent, i, -, -, hright, -, hslot⟩ := M.of_visit ht h hsign hstart nofun
  have hi := (List.getElem?_eq_some_iff.mp hright).1
  refine hslot (act_mem_ofAction.mpr ⟨?_, rfl⟩)
  rw [(names_resolved p hp).slots i hi nt (mem_named hhands) hright, hhands]

theorem handed (M : (machineWith t).Moment w.tree history done ahead) (h : .visit id ∈ done)
    {nt : Nat} (hsign : w.tree.sign? id = some (nonTerminal nt)) {action : Action}
    (hhands : hands nt = some action) : .act action id ∈ done := by
  obtain ⟨before, after, rfl⟩ := List.append_of_mem h
  exact List.mem_append_left _ (handed_before ht M (List.append_assoc ..) hsign hhands)

theorem inherited_of_at
    (M : (machineWith t).Moment w.tree history done (.act .inherit id :: ahead))
    (hpassed : Passed done w) (hsign : w.tree.sign? id = some (nonTerminal Place.callFollow))
    (hat : semantics.at (some .inherit) id w = (.ok (), w')) :
    ∃ name, CallBy done w.tree id name ∧ (w'.tree.attrs id).id = some name := by
  obtain ⟨p, hp, parent, i, hplan, hchild, -, hvisit, -⟩ :=
    M.of_slots ht rfl (fills_name (by decide))
  obtain ⟨s, hright, hs⟩ := M.child_sign? hplan hchild
  cases hsign.symm.trans hs
  have hi := (List.getElem?_eq_some_iff.mp hright).1
  obtain ⟨rfl, hhands⟩ := (callsByName_resolved p hp).first i hi hright
  obtain ⟨name, hbehind, hname⟩ :=
    hpassed parent (handed ht M hvisit (M.production ht hplan).2 hhands)
  have hplace := (M.rooted.child?_eq_some_iff parent 0 id).mp hchild
  have hparent : w.tree.parent? id = some parent := Tree.parent?_eq_some_iff.mpr ⟨0, hplace⟩
  obtain ⟨change, hjudge, rfl⟩ := exists_change hat
  rw [Action.judge, Site.parent?_of hparent] at hjudge
  cases hjudge
  refine ⟨name, ⟨hplace, hbehind⟩, ?_⟩
  rw [attrs_commit (Tree.lt_size_of_sign? hsign), hname]

theorem inherited_of_did (D : (machineWith t).Did pool done w) : Inherited done w := by
  induction D with
  | start => exact fun _ h => absurd h List.not_mem_nil
  | @next done ahead steps e history w w' D M hdeed ih =>
    intro id hid hsign'
    by_cases hnew : .act .inherit id ∈ e :: steps
    · obtain ⟨p, hp, s, hsign, -⟩ := M.post_of_deed hdeed ht hnew
      cases (hdeed.sign? local_semantics hsign).symm.trans hsign'
      obtain ⟨rfl, hat⟩ := hdeed.eq_act ht hnew fun p hp => (fills_name (by decide) p hp).1
      obtain ⟨name, hcall, hname⟩ := inherited_of_at ht M (passed_of_did ht D) hsign hat
      exact ⟨name, hcall.next ht M hdeed, hname⟩
    · have hold := (List.mem_append.mp hid).resolve_right hnew
      obtain ⟨p, hp, s, hsign, -⟩ := M.post ht (List.mem_append_left _ hold)
      cases (hdeed.sign? local_semantics hsign).symm.trans hsign'
      obtain ⟨name, hcall, hname⟩ := ih id hold hsign
      refine ⟨name, hcall.next ht M hdeed, ?_⟩
      rw [id_eq_of_named ht M hdeed hsign rfl hnew, hname]

/-! ## Resolving a call -/

/-- A call that is resolved had its name handed to it before. -/
theorem inherit_mem_of_resolveCall
    (M : (machineWith t).Moment w.tree history done (e :: ahead))
    (hdeed : (machineWith t).Deed w (e :: steps) w') (hact : .act .resolveCall id ∈ e :: steps) :
    w.tree.sign? id = some (nonTerminal Place.callFollow) ∧ .act .inherit id ∈ done := by
  rcases hdeed.act_cases ht hact with rfl | ⟨rfl, p, hp, hsign, hopening⟩
  · obtain ⟨p, hp, hplan, hopening, hvisit⟩ := M.of_opens ht rfl opens_call
    have hsign := (M.production ht hplan).2
    rw [(callsByName_resolved p hp).left hopening] at hsign
    exact ⟨hsign, handed ht M hvisit hsign rfl⟩
  · rw [(callsByName_resolved p hp).left hopening] at hsign
    exact ⟨hsign, handed_before ht M rfl hsign rfl⟩

theorem called_of_did (D : (machineWith t).Did pool done w) : Called done w := by
  induction D with
  | start => exact fun _ h => absurd h List.not_mem_nil
  | @next done ahead steps e history w w' D M hdeed ih =>
    intro id hid
    suffices hcalled : ∃ name, CallBy done w.tree id name ∧
        (calledFunction? w.pool name).isSome by
      obtain ⟨name, hcall, hentry⟩ := hcalled
      exact ⟨name, hcall.next ht M hdeed,
        isSome_calledFunction?_of_keeps (keeps_of_becomes hdeed.becomes) hentry⟩
    rcases List.mem_append.mp hid with hold | hnew
    · exact ih id hold
    · obtain ⟨hsign, hinherit⟩ := inherit_mem_of_resolveCall ht M hdeed hnew
      obtain ⟨name, hcall, hname⟩ := inherited_of_did ht D id hinherit hsign
      refine ⟨name, hcall, ?_⟩
      obtain ⟨w₁, hat, -, -⟩ := hdeed.ran local_semantics hnew
      obtain ⟨change, hjudge, -⟩ := exists_change hat
      rw [Action.judge, Site.identifier_eq (s := Site.of w id) hname, ok_bind] at hjudge
      have hpool : (Site.of w id).pool = w.pool := rfl
      rw [hpool] at hjudge
      cases hentry : calledFunction? w.pool name with
      | none =>
        rw [hentry] at hjudge
        cases hjudge
      | some entry => rfl

end Did

end PredictiveParsing.Cminus
