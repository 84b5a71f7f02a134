import Mathlib.Data.List.Forall2
import PredictiveParsing.Proofs.Parse.Agreement
import PredictiveParsing.Proofs.Parse.Traversal
import PredictiveParsing.Proofs.Tree.Tours

/-!
# The tree of an accepted run

The nodes that take the tokens carry them to the end of the run: an action only writes at its own
node, which takes its token later or takes none (`Underway.ne_of_due`). So the tree of an accepted
run has the tokens at its leaves, and it is built by productions of the grammar
(`parses_of_finishes`).
-/

namespace PredictiveParsing

variable {α : Type}

/-! ## Tokens at nodes -/

namespace Tree

/-- The node shows the token: its sign is the token's, and so are text and line. -/
structure Shows (t : Tree) (g : Grammar α) (id : Nat) (token : Token) : Prop where
  sign : t.sign? id = g.terminal token.kind
  matched : t.takes id = true
  lexical : (t.attrs id).lexical = some token.text
  line : (t.attrs id).line = some token.line

theorem Shows.of_eq {t t' : Tree} {g : Grammar α} {id : Nat} {token : Token}
    (h : t.Shows g id token) (hsign : t'.sign? id = t.sign? id)
    (hattrs : t'.attrs id = t.attrs id) : t'.Shows g id token where
  sign := hsign.trans h.sign
  matched := by
    rw [takes, hsign]
    exact h.matched
  lexical := hattrs ▸ h.lexical
  line := hattrs ▸ h.line

end Tree

namespace Machine

variable {m : Machine α}

theorem length_takersOf (history : List (Event α)) :
    (takersOf history).length = countTaken history := by
  rw [takersOf, List.filterMap_reverse, List.length_reverse, List.length_filterMap_eq_countP,
    countTaken]
  congr 1
  funext e
  cases e <;> rfl

/-- Actions leave alone the nodes that they are not run at. -/
theorem attrs_performAll (hm : m.semantics.Local) {due : List (α × Nat)} {c c' : Config α}
    {r : Except Failure Unit} (h : m.performAll due c = (r, c')) {id : Nat}
    (hid : ∀ a ∈ due, a.2 ≠ id) : c'.workspace.tree.attrs id = c.workspace.tree.attrs id := by
  refine performAll_keeps (P := fun c₁ => c₁.workspace.tree.attrs id = c.workspace.tree.attrs id)
    (fun a ha c₁ r₁ c₂ he hc₁ => ?_) h rfl
  obtain ⟨-, attrs, hattrs⟩ := perform_eq_setAttrs hm he
  rw [hattrs, Tree.attrs_setAttrs_of_ne (hid a ha).symm, hc₁]

/-! ## Reading the input -/

/-- The nodes that took a token show the tokens in their order. -/
def Read (m : Machine α) (tokens : List Token) (w : Workspace) (history : List (Event α)) : Prop :=
  List.Forall₂ (w.tree.Shows m.grammar) (takersOf history) (tokens.take (countTaken history))

section Read

variable {tokens : List Token} {done : List (Errand α)} {c c' : Config α}

/-- What keeps the nodes that took a token keeps the tokens at them. -/
theorem Read.congr {w w' : Workspace} {history history' : List (Event α)}
    (h : m.Read tokens w history) (htakers : takersOf history' = takersOf history)
    (hsign : ∀ id ∈ takersOf history, w'.tree.sign? id = w.tree.sign? id)
    (hattrs : ∀ id ∈ takersOf history, w'.tree.attrs id = w.tree.attrs id) :
    m.Read tokens w' history' := by
  rw [Read, ← length_takersOf, htakers, length_takersOf]
  refine ((List.forall₂_and_left _ _).mpr ⟨fun id hid => hid, h⟩).imp ?_
  exact fun id token ⟨hid, hshows⟩ => hshows.of_eq (hsign id hid) (hattrs id hid)

theorem Underway.of_taker (U : m.Underway done c) {id : Nat} (h : id ∈ takersOf c.history) :
    .visit id ∈ done ∧ c.workspace.tree.takes id = true := by
  rw [U.takers, List.mem_filter, Errand.mem_visits] at h
  exact h

/-- An action that is due is none of a node that took a token. -/
theorem Underway.ne_of_due (U : m.Underway done c) {frame : Frame α} (hframe : frame ∈ c.stack)
    {a : α × Nat} (ha : a ∈ frame.due) {id : Nat} (hid : id ∈ takersOf c.history) : a.2 ≠ id := by
  obtain ⟨hdone, htakes⟩ := U.of_taker hid
  rintro rfl
  rcases U.due frame hframe a ha with hnode | ⟨nt, hnt⟩
  · refine U.not_mem_done ?_ hdone
    rw [hnode]
    exact List.mem_flatMap.mpr ⟨frame, hframe, List.mem_append_right _ (List.mem_singleton_self _)⟩
  · exact Tree.sign?_ne_of_takes htakes nt hnt

theorem Read.due_done (hm : m.semantics.Local) {frame : Frame α} {stack : List (Frame α)}
    {w : Workspace} {history : List (Event α)} (U : m.Underway done ⟨frame :: stack, w, history⟩)
    (h : m.Read tokens w history)
    (hdue : m.performAll frame.due ⟨stack, w, history⟩ = (.ok (), c')) :
    m.Read tokens c'.workspace c'.history := by
  obtain ⟨hacted, -⟩ := acted_performAll hm.attributive hdue
  refine h.congr hacted.takers (fun id _ => Tree.sign?_eq_of_bare hacted.bare id) fun id hid => ?_
  exact attrs_performAll hm hdue fun a ha => U.ne_of_due List.mem_cons_self ha hid

/-- The node on top takes the token behind those that were taken. -/
theorem Read.taken {id : Nat} {stack : List (Frame α)} {tree : Tree} {pool : Pool}
    {history : List (Event α)} (U : m.Underway done ⟨⟨[], id⟩ :: stack, ⟨tree, pool⟩, history⟩)
    (h : m.Read tokens ⟨tree, pool⟩ history) (hk : countTaken history < tokens.length) {s : Sign}
    (hsign : tree.sign? id = some s) (hs : s.matched = true)
    (hcurrent : (m.lookaheadAt tokens (countTaken history)).sign = some s) :
    let current := m.lookaheadAt tokens (countTaken history)
    let attrs := { tree.attrs id with lexical := some current.text, line := some current.line }
    m.Read tokens ⟨tree.setAttrs id attrs, pool⟩ (.took id :: history) := by
  have hlook : m.lookaheadAt tokens (countTaken history) =
      Lookahead.ofToken m.grammar tokens[countTaken history] := by
    rw [lookaheadAt, List.getElem?_eq_getElem hk]
    rfl
  rw [hlook] at hcurrent
  intro current attrs
  have hid := Tree.lt_size_of_sign? hsign
  have hfirst : m.Read tokens ⟨tree.setAttrs id attrs, pool⟩ history := by
    refine h.congr rfl (fun id' _ => Tree.sign?_setAttrs ..) fun id' hid' =>
      Tree.attrs_setAttrs_of_ne ?_ attrs
    rintro rfl
    exact U.not_mem_done List.mem_cons_self (U.of_taker hid').1
  have hlast : (tree.setAttrs id attrs).Shows m.grammar id tokens[countTaken history] := by
    have hattrs : (tree.setAttrs id attrs).attrs id = attrs := by
      rw [Tree.attrs_setAttrs hid, if_pos rfl]
    refine ⟨?_, ?_, ?_, ?_⟩
    · rw [Tree.sign?_setAttrs, hsign]
      exact hcurrent.symm
    · rw [Tree.takes_of_sign? ((Tree.sign?_setAttrs ..).trans hsign), hs]
    · rw [hattrs]
      exact congrArg (fun l => some l.text) hlook
    · rw [hattrs]
      exact congrArg (fun l => some l.line) hlook
  rw [Read, takersOf_took, countTaken_cons_took, ← List.take_append_getElem hk]
  exact List.rel_append hfirst (.cons hlast .nil)

theorem Read.visited (hm : m.semantics.Local) {id : Nat} {stack : List (Frame α)}
    {w : Workspace} {history : List (Event α)} {o : Outcome α}
    (U : m.Underway done ⟨⟨[], id⟩ :: stack, w, history⟩) (h : m.Read tokens w history)
    (hvisited : m.Visited (m.lookaheadAt tokens (countTaken history)) id ⟨stack, w, history⟩ o)
    (ho : o.next? = some c') (hk : o = .taken c' → countTaken history < tokens.length) :
    m.Read tokens c'.workspace c'.history := by
  obtain ⟨tree, pool⟩ := w
  cases hvisited with
  | astray => cases ho
  | declined => cases ho
  | failed => cases ho
  | accepted => cases ho
  | passed hsign =>
    cases ho
    exact h
  | taken hsign hs hcurrent hid =>
    cases ho
    exact h.taken U (hk rfl) hsign hs hcurrent
  | @expanded index p c₁ hoffers hp hslots hopening =>
    cases ho
    obtain ⟨hacted, -⟩ := acted_performAll hm.attributive hopening
    have ⟨nt, _, _, hnt, _⟩ := hoffers
    obtain ⟨stack₁, ⟨tree₁, pool₁⟩, history₁⟩ := c₁
    have hsize : tree₁.size = tree.size := Tree.size_eq_of_bare hacted.bare
    have hlt : ∀ id' ∈ takersOf history, id' < tree₁.size := fun id' hid' =>
      hsize ▸ U.lt_size (List.mem_append_left _ (U.of_taker hid').1)
    refine h.congr (hacted.takers.trans (takersOf_expanded ..)) (fun id' hid' => ?_)
      fun id' hid' => ?_
    · exact (Tree.sign?_attachAll ..).trans ((if_pos (hlt id' hid')).trans
        (Tree.sign?_eq_of_bare hacted.bare id'))
    · refine (Tree.attrs_attachAll (hsize ▸ Tree.lt_size_of_sign? hnt) (hlt id' hid') _).trans
        (attrs_performAll hm hopening fun a ha => ?_)
      obtain ⟨action, -, rfl⟩ := List.mem_map.mp ha
      rintro rfl
      exact Tree.sign?_ne_of_takes (U.of_taker hid').2 nt hnt

theorem Read.step (hm : m.semantics.Local) {o : Outcome α} (U : m.Underway done c)
    (h : m.Read tokens c.workspace c.history)
    (hs : m.Stepped (m.lookaheadAt tokens (countTaken c.history)) c o)
    (ho : o.next? = some c') (hk : o = .taken c' → countTaken c.history < tokens.length) :
    m.Read tokens c'.workspace c'.history := by
  cases hs with
  | blank => cases ho
  | due => cases ho
  | @visited frame stack w history c₁ o hdue hvisited =>
    obtain ⟨hacted, -⟩ := acted_performAll hm.attributive hdue
    have U₁ := U.due_done hm.attributive hdue
    have h₁ := h.due_done hm U hdue
    have hcount : countTaken c₁.history = countTaken history := by
      rw [← length_takersOf, hacted.takers, length_takersOf]
    obtain ⟨stack₁, w₁, history₁⟩ := c₁
    obtain rfl : stack₁ = stack := hacted.stack
    simp only at hcount hvisited hk
    rw [← hcount] at hvisited hk
    exact h₁.visited hm U₁ hvisited ho hk

theorem Reaches.read (hm : m.semantics.Local) {pool : Pool} {rest : List Lookahead}
    (h : m.Reaches tokens pool rest c) : m.Read tokens c.workspace c.history := by
  induction h with
  | start => exact .nil
  | @moved rest c c' hreaches hs ih =>
    obtain ⟨done, U⟩ := hreaches.exists_underway hm.attributive
    have hstepped := stepped_step m (rest.headD (Lookahead.atEnd tokens)) c
    rw [hreaches.headD_eq] at hstepped hs
    exact ih.step hm U hstepped (congrArg Outcome.next? hs) fun ho => nomatch hs.symm.trans ho
  | @taken current rest c c' hreaches hs ih =>
    obtain ⟨done, U⟩ := hreaches.exists_underway hm.attributive
    have hstepped := stepped_step m current c
    have hhead := hreaches.headD_eq
    rw [List.headD_cons] at hhead
    rw [hhead] at hstepped hs
    refine ih.step hm U hstepped (congrArg Outcome.next? hs) fun _ => ?_
    have hlength := congrArg List.length hreaches.rest_eq
    rw [List.length_cons, List.length_map, List.length_drop] at hlength
    omega

/-! ## Accepted runs -/

/-- Behind the last token stands the end mark, and nowhere else. -/
theorem length_le_of_pound {k : Nat} (h : (m.lookaheadAt tokens k).sign = some .pound) :
    tokens.length ≤ k := by
  by_contra hk
  rw [lookaheadAt, List.getElem?_eq_getElem (Nat.lt_of_not_le hk)] at h
  obtain ⟨i, -, hi⟩ := Option.map_eq_some_iff.mp h
  cases hi

/-- An accepted run has done all errands of its tree, and all tokens were read. -/
theorem Finishes.accepted (hm : m.semantics.Local) {pool : Pool}
    (h : m.Finishes tokens pool .accepted c) : ∃ done stack,
      m.Underway done ⟨⟨[], sentinel⟩ :: stack, c.workspace, c.history⟩ ∧
        List.Forall₂ (c.workspace.tree.Shows m.grammar) (takersOf c.history) tokens := by
  obtain ⟨rest, c₀, hreaches, hs⟩ := finishes_iff.mp h
  obtain ⟨done, U⟩ := hreaches.exists_underway hm.attributive
  have hread := hreaches.read hm
  have hstepped := stepped_step m (rest.headD (Lookahead.atEnd tokens)) c₀
  rw [hs, hreaches.headD_eq] at hstepped
  cases hstepped with
  | @visited frame stack w history c₁ _ hdue hvisited =>
    obtain ⟨hacted, -⟩ := acted_performAll hm.attributive hdue
    have U₁ := U.due_done hm.attributive hdue
    have hread₁ := hread.due_done hm U hdue
    have hcount : countTaken c₁.history = countTaken history := by
      rw [← length_takersOf, hacted.takers, length_takersOf]
    cases hvisited with
    | accepted hsign hcurrent hid =>
      rw [hid] at U₁ hsign
      rw [U₁.mark] at hsign
      cases hsign
      rw [Read, hcount, List.take_of_length_le (length_le_of_pound hcurrent)] at hread₁
      exact ⟨_, stack, U₁, hread₁⟩

/-- Every sign of the tree but the end mark's fits the grammar. -/
theorem Underway.sign_fits (hg : m.grammar.Valid) (U : m.Underway done c) {id : Nat}
    (hid : id < c.workspace.tree.size) (hne : id ≠ sentinel) :
    ∃ s, c.workspace.tree.sign? id = some s ∧ m.grammar.fits s = true := by
  cases hplace : c.workspace.tree.place? id with
  | none =>
    obtain rfl := (U.rooted.orphan id hid hplace).resolve_right hne
    exact ⟨_, U.start, Grammar.fits_nonTerminal.mpr hg.start_lt⟩
  | some place =>
    obtain ⟨parent, i⟩ := place
    have hmem : id ∈ c.workspace.tree.children parent :=
      List.mem_of_getElem? ((U.rooted.child?_eq_some_iff parent i id).mpr hplace)
    cases hplan : m.grammar.planOf c.history parent with
    | none =>
      rw [U.childless parent hplan] at hmem
      cases hmem
    | some p =>
      obtain ⟨_, _, index, _, _, hp⟩ := (U.planned parent p hplan).1
      have hsign := List.mem_map_of_mem (f := c.workspace.tree.sign?) hmem
      rw [U.grown parent p hplan] at hsign
      obtain ⟨s, hs, heq⟩ := List.mem_map.mp hsign
      exact ⟨s, heq.symm, hg.right_fits p (List.mem_of_getElem? hp) s hs⟩

/-- When all is done the nodes that took the tokens are the leaves. -/
theorem Underway.leaves_eq (hg : m.grammar.Valid) {stack : List (Frame α)} {w : Workspace}
    {history : List (Event α)} (U : m.Underway done ⟨⟨[], sentinel⟩ :: stack, w, history⟩) :
    w.tree.leaves = takersOf history := by
  have T : m.Traversal w.tree history done (.visit sentinel :: pending stack) := U.toTraversal
  have hvisits : Errand.visits done = w.tree.subtree Tree.root := by
    rw [← T.eq_of_sentinel.1]
    exact Tree.visits_errands T.rooted.toWellLinked T.childless _ T.rooted.root_lt
  rw [U.takers, hvisits, Tree.leaves, Tree.map_preorder T.rooted.toWellLinked T.rooted.root_lt]
  refine List.filter_congr fun id hid => ?_
  have hdone : .visit id ∈ done := by rwa [← Errand.mem_visits, hvisits]
  have hne : id ≠ sentinel := fun h => T.fresh (h ▸ hdone)
  obtain ⟨s, hsign, hs⟩ := U.sign_fits hg (T.lt_size (List.mem_append_left _ hdone)) hne
  obtain ⟨n, hn, rfl⟩ := Option.map_eq_some_iff.mp hsign
  simp only at hn ⊢
  rw [hn, Tree.takes_of_sign? hsign, Option.any_some]
  cases h : n.sign with
  | terminal => rfl
  | nonTerminal => rfl
  | empty => rw [h] at hs; cases hs
  | pound => rw [h] at hs; cases hs

end Read

end Machine

/-- The tree is one of these tokens: it is built by productions from the start symbol, and its
leaves show the tokens in their order. -/
structure Tree.Parses (t : Tree) (g : Grammar α) (tokens : List Token) : Prop where
  root : t.sign? Tree.root = some (.nonTerminal g.start)
  nonTerminals : ∀ id nt, t.sign? id = some (.nonTerminal nt) →
    ∃ p ∈ g.productions, p.left = nt ∧ (t.children id).map t.sign? = p.right.map some
  terminals : ∀ id i, t.sign? id = some (.terminal i) → t.children id = []
  leaves : List.Forall₂ (t.Shows g) t.leaves tokens
  leafTexts : t.leafTexts = tokens.map Token.text
  reached : ∀ id < t.size, id ≠ Machine.sentinel → ∃! way, t.Descends Tree.root way id
  apart : ∀ way, ¬ t.Descends Tree.root way Machine.sentinel

theorem Tree.filterMap_lexical {t : Tree} {g : Grammar α} {ids : List Nat} {tokens : List Token}
    (h : List.Forall₂ (t.Shows g) ids tokens) :
    (ids.filterMap fun id => (t.attrs id).lexical) = tokens.map Token.text := by
  induction h with
  | nil => rfl
  | cons hshows _ ih => simp [hshows.lexical, ih]

theorem Machine.parses_of_finishes {m : Machine α} (hm : m.semantics.Local) (hg : m.grammar.Valid)
    (ht : m.table.Fits m.grammar) {tokens : List Token} {pool : Pool} {c : Config α}
    (h : m.Finishes tokens pool .accepted c) : c.workspace.tree.Parses m.grammar tokens := by
  obtain ⟨done, stack, U, hread⟩ := h.accepted hm
  have hleaves := U.leaves_eq hg
  rw [← hleaves] at hread
  have T : m.Traversal c.workspace.tree c.history done (.visit sentinel :: pending stack) :=
    U.toTraversal
  exact
    { root := T.start
      nonTerminals := by
        intro id nt hsign
        have hdone := T.mem_done_of_sentinel hsign nofun
        obtain ⟨p, hp⟩ := Option.ne_none_iff_exists'.mp (U.expanded id nt hdone hsign)
        obtain ⟨nt', x, index, hsign', hindex, hprod⟩ := (T.planned id p hp).1
        obtain ⟨q, hq, hleft⟩ := ht.chosen nt' x index hindex
        rw [hprod] at hq
        cases hq
        rw [hsign] at hsign'
        cases hsign'
        exact ⟨p, List.mem_of_getElem? hprod, hleft, U.grown id p hp⟩
      terminals := by
        intro id i hsign
        refine T.childless id (Option.eq_none_iff_forall_ne_some.mpr fun p hp => ?_)
        obtain ⟨nt, _, _, hnt, -⟩ := (T.planned id p hp).1
        rw [hsign] at hnt
        cases hnt
      leaves := hread
      leafTexts := Tree.filterMap_lexical hread
      reached := fun id hid hne => T.rooted.existsUnique_descends hid hne
      apart := fun _ => T.rooted.not_descends_apart }

/-- Whatever the actions of an accepted run write, its tree is one of the tokens. -/
theorem accepted_tree_parses (m : Machine α) (hg : m.grammar.validate = .ok ())
    (ht : m.table.Fits m.grammar) (hm : m.semantics.Local) (tokens : List Token) (pool : Pool) :
    (∀ c, m.Finishes tokens pool .accepted c → c.workspace.tree.Parses m.grammar tokens) ∧
      ∀ tree, (m.run tokens pool).result? = some (.ok tree) → tree.Parses m.grammar tokens := by
  have hvalid := Grammar.validate_eq_ok_iff.mp hg
  refine ⟨fun c h => Machine.parses_of_finishes hm hvalid ht h, fun tree htree => ?_⟩
  obtain ⟨hv, rfl⟩ := Run.result?_eq_some_ok_iff.mp htree
  obtain ⟨c, hfinishes, hworkspace, -⟩ := Machine.exists_finishes_run (.inl hv)
  rw [hv] at hfinishes
  have hparses := Machine.parses_of_finishes hm hvalid ht hfinishes
  rwa [hworkspace] at hparses

/-- The `a` that was entered has the line of its token, not the scopes that were counted there. -/
theorem accepted_tree_parses_blocks :
    ∃ tree, (blocks.run oneBlock Pool.initial).result? = some (.ok tree) ∧
      tree.leaves.map (fun id => (tree.attrs id).line) = [some 7, some 9] ∧
      tree.Parses blocks.grammar oneBlock := by
  have hresult : (blocks.run oneBlock Pool.initial).result? =
      some (.ok (blocks.run oneBlock Pool.initial).tree) := by
    decide +kernel
  refine ⟨_, hresult, by decide +kernel, ?_⟩
  exact (accepted_tree_parses blocks (by decide) fits_blocks local_blocks _ _).2 _ hresult

end PredictiveParsing
