import PredictiveParsing.Proofs.Parse.Forest

/-!
# A grammar with a table is not ambiguous

* `unambiguous`: trees of the start symbol with the same leaves have the same shape, and a grammar
  with two leftmost derivations of one word whose productions differ in shape has no table.

`Leftmost g ps u v` lists the productions of a leftmost derivation. At its first non-terminal both
derivations of a word claim the cell of the terminal that comes next, or of the end mark, so they
go on in the same way (`Leftmost.unique`). A tree is a leftmost derivation by the productions at its
nodes (`Forest.Built.leftmost`), and these tell its shape (`Forest.sameShape_of_preorder`).
-/

namespace PredictiveParsing

variable {α : Type} {g : Grammar α}

/-! ## Words before a non-terminal -/

theorem IsWord.not_mem_nonTerminal {u : List Sign} (hu : IsWord u) (n : Nat) :
    .nonTerminal n ∉ u := fun h => nomatch hu _ h

/-- The first non-terminal of a list and what is around it are unique. -/
theorem IsWord.split_unique {u v x y : List Sign} {m n : Nat} (hu : IsWord u) (hv : IsWord v)
    (h : u ++ .nonTerminal m :: x = v ++ .nonTerminal n :: y) : u = v ∧ m = n ∧ x = y := by
  induction u generalizing v with
  | nil =>
    cases v with
    | nil => simpa using h
    | cons s v =>
      obtain ⟨rfl, -⟩ := List.cons.inj h
      exact absurd List.mem_cons_self (hv.not_mem_nonTerminal m)
  | cons s u ih =>
    cases v with
    | nil =>
      obtain ⟨rfl, -⟩ := List.cons.inj h
      exact absurd List.mem_cons_self (hu.not_mem_nonTerminal n)
    | cons s' v =>
      obtain ⟨rfl, htail⟩ := List.cons.inj h
      obtain ⟨rfl, hrest⟩ :=
        ih (List.forall_mem_cons.mp hu).2 (List.forall_mem_cons.mp hv).2 htail
      exact ⟨rfl, hrest⟩

theorem IsWord.exists_heads {v : List Sign} (hv : IsWord v) : ∃ x, Heads x v := by
  cases v with
  | nil => exact ⟨some .pound, rfl⟩
  | cons s v =>
    have hs := (List.forall_mem_cons.mp hv).1
    cases s with
    | terminal i => exact ⟨some (.terminal i), v, rfl⟩
    | nonTerminal | empty | pound => cases hs

/-! ## Leftmost derivations -/

namespace Grammar

/-- Each of `ps` in its turn takes the place of the first non-terminal, from `u` until `v`. -/
inductive Leftmost (g : Grammar α) : List (Production α) → List Sign → List Sign → Prop
  | done (u : List Sign) : Leftmost g [] u u
  | expand {p : Production α} (hp : p ∈ g.productions) {before after v : List Sign}
      {ps : List (Production α)} (hbefore : IsWord before)
      (h : Leftmost g ps (before ++ (p.right ++ after)) v) :
      Leftmost g (p :: ps) (before ++ .nonTerminal p.left :: after) v

theorem Leftmost.derives {ps : List (Production α)} {u v : List Sign} (h : g.Leftmost ps u v) :
    g.Derives u v := by
  induction h with
  | done u => exact .refl u
  | @expand p hp before after _ _ _ _ ih =>
    have hstep : g.Derives (before ++ .nonTerminal p.left :: after) (before ++ (p.right ++ after)) :=
      Relation.ReflTransGen.single (.replace hp before after)
    exact hstep.trans ih

theorem Leftmost.trans {ps qs : List (Production α)} {u v w : List Sign} (h : g.Leftmost ps u v)
    (h' : g.Leftmost qs v w) : g.Leftmost (ps ++ qs) u w := by
  induction h with
  | done => exact h'
  | expand hp hbefore _ ih => exact .expand hp hbefore (ih h')

theorem Leftmost.append_right {ps : List (Production α)} {u v : List Sign} (y : List Sign)
    (h : g.Leftmost ps u v) : g.Leftmost ps (u ++ y) (v ++ y) := by
  induction h with
  | done u => exact .done (u ++ y)
  | expand hp hbefore _ ih =>
    simp only [List.append_assoc] at ih
    rw [List.append_assoc]
    exact .expand hp hbefore ih

/-- A word in front does not change which non-terminal is the first. -/
theorem Leftmost.append_left {ps : List (Production α)} {u v x : List Sign} (hx : IsWord x)
    (h : g.Leftmost ps u v) : g.Leftmost ps (x ++ u) (x ++ v) := by
  induction h with
  | done u => exact .done (x ++ u)
  | expand hp hbefore _ ih =>
    rw [← List.append_assoc] at ih ⊢
    exact .expand hp (List.forall_mem_append.mpr ⟨hx, hbefore⟩) ih

theorem Leftmost.eq_nil_of_isWord {ps : List (Production α)} {u v : List Sign}
    (h : g.Leftmost ps u v) (hu : IsWord u) : ps = [] := by
  cases h with
  | done => rfl
  | expand => exact absurd (List.mem_append_right _ List.mem_cons_self) (hu.not_mem_nonTerminal _)

/-- A leftmost derivation of a word has to expand the first non-terminal. -/
theorem Leftmost.expand_cases {qs : List (Production α)} {before after w : List Sign} {n : Nat}
    (h : g.Leftmost qs (before ++ .nonTerminal n :: after) w) (hbefore : IsWord before)
    (hw : IsWord w) : ∃ q ∈ g.productions, ∃ qs', q.left = n ∧ qs = q :: qs' ∧
      g.Leftmost qs' (before ++ (q.right ++ after)) w := by
  generalize hu : before ++ .nonTerminal n :: after = u at h
  cases h with
  | done =>
    subst hu
    exact absurd (List.mem_append_right _ List.mem_cons_self) (hw.not_mem_nonTerminal n)
  | @expand q hq before' after' _ qs' hbefore' h =>
    obtain ⟨rfl, rfl, rfl⟩ := hbefore.split_unique hbefore' hu
    exact ⟨q, hq, qs', rfl, rfl, h⟩

/-- What stands in front of the first non-terminal is a beginning of the word. -/
theorem Leftmost.exists_rest {ps : List (Production α)} {before u w : List Sign}
    (h : g.Leftmost ps (before ++ u) w) (hbefore : IsWord before) :
    ∃ v, w = before ++ v ∧ g.Derives u v := by
  obtain ⟨x, v, rfl, hx, hv⟩ := h.derives.split
  rw [hx.eq_of_isWord hbefore]
  exact ⟨v, rfl, hv⟩

/-- Productions that lead from one form to one word have the same shape. -/
theorem ClaimsAgree.sameShape (hagree : g.ClaimsAgree) {p q : Production α}
    (hp : p ∈ g.productions) (hq : q ∈ g.productions) (hleft : q.left = p.left)
    {before after v : List Sign}
    (hreach : g.Derives [.nonTerminal g.start] (before ++ .nonTerminal p.left :: after))
    (hv : IsWord v) (hpv : g.Derives (p.right ++ after) v) (hqv : g.Derives (q.right ++ after) v) :
    p.SameShape q := by
  obtain ⟨x, hx⟩ := hv.exists_heads
  obtain ⟨s, rfl, hclaims⟩ := claims_of_derives hp hreach hx hpv
  obtain ⟨s', hs', hclaims'⟩ := claims_of_derives hq (hleft ▸ hreach) hx hqv
  cases hs'
  exact hagree p hp q hq s hleft.symm hclaims hclaims'

/-- From a form that the start symbol comes to there is one leftmost derivation of a word. -/
theorem Leftmost.unique (hagree : g.ClaimsAgree) {ps qs : List (Production α)} {u w : List Sign}
    (h : g.Leftmost ps u w) (hw : IsWord w) (hreach : g.Derives [.nonTerminal g.start] u)
    (h' : g.Leftmost qs u w) : List.Forall₂ Production.SameShape ps qs := by
  induction h generalizing qs with
  | done u =>
    rw [h'.eq_nil_of_isWord hw]
    exact .nil
  | @expand p hp before after w ps hbefore h ih =>
    obtain ⟨q, hq, qs, hleft, rfl, hnext'⟩ := h'.expand_cases hbefore hw
    obtain ⟨v, rfl, hpv⟩ := h.exists_rest hbefore
    obtain ⟨v', hv', hqv⟩ := hnext'.exists_rest hbefore
    obtain rfl := List.append_cancel_left hv'
    have hv : IsWord v := fun s hs => hw s (List.mem_append_right before hs)
    have hshape := hagree.sameShape hp hq hleft hreach hv hpv hqv
    have hnext : g.Derives [.nonTerminal g.start] (before ++ (p.right ++ after)) :=
      hreach.trans (.append_left before ((Derives.of_production hp).append_right after))
    refine .cons hshape (ih hw hnext ?_)
    rwa [hshape.2]

end Grammar

/-! ## Trees -/

namespace Forest

/-- Equal up to the tokens at the leaves and the actions of productions. -/
inductive SameShape : Forest α → Forest α → Prop
  | nil : SameShape nil nil
  | leaf (i : Nat) (x y : Token) {F G : Forest α} (h : SameShape F G) :
      SameShape (leaf i x F) (leaf i y G)
  | node {p q : Production α} {B C F G : Forest α} (hp : p.SameShape q) (hbelow : SameShape B C)
      (h : SameShape F G) : SameShape (node p B F) (node q C G)

/-- The productions at the nodes, each before those below it. -/
def preorder : Forest α → List (Production α)
  | nil => []
  | leaf _ _ rest => preorder rest
  | node p below rest => p :: (preorder below ++ preorder rest)

theorem isWord_word (F : Forest α) : IsWord F.word := by
  induction F with
  | nil => simp [word, IsWord]
  | leaf i _ rest ih => exact List.forall_mem_cons.mpr ⟨rfl, ih⟩
  | node _ _ _ ihb ihr => exact List.forall_mem_append.mpr ⟨ihb, ihr⟩

theorem Built.leftmost {F : Forest α} (hF : F.Built g) :
    g.Leftmost F.preorder F.roots F.word := by
  induction F with
  | nil => exact .done []
  | leaf i _ rest ih =>
    have hi : IsWord [.terminal i] := List.forall_mem_singleton.mpr rfl
    exact (ih hF).append_left hi
  | node p below rest ihb ihr =>
    obtain ⟨⟨hp, hroots, hbelow⟩, hrest⟩ := hF
    have hdown := (ihb hbelow).append_right rest.roots
    have hnext := (ihr hrest).append_left below.isWord_word
    rw [hroots] at hdown
    have hfront : IsWord [] := List.forall_mem_nil _
    exact .expand hp hfront (hdown.trans hnext)

/-- Forests with the same roots whose nodes have the same shapes in this order are the same. -/
theorem sameShape_of_preorder {F G : Forest α} (hF : F.Built g) (hG : G.Built g)
    (hroots : F.roots = G.roots) {ps qs : List (Production α)}
    (h : List.Forall₂ Production.SameShape (F.preorder ++ ps) (G.preorder ++ qs)) :
    F.SameShape G ∧ List.Forall₂ Production.SameShape ps qs := by
  induction F generalizing G ps qs with
  | nil =>
    cases G with
    | nil => exact ⟨.nil, h⟩
    | leaf | node => cases hroots
  | leaf i x F ih =>
    cases G with
    | nil | node => cases hroots
    | leaf j y G =>
      obtain ⟨hi, htail⟩ := List.cons.inj hroots
      cases hi
      obtain ⟨hsame, hrest⟩ := ih (G := G) hF hG htail h
      exact ⟨.leaf i x y hsame, hrest⟩
  | node p B F ihb ihr =>
    cases G with
    | nil | leaf => cases hroots
    | node q C G =>
      obtain ⟨⟨-, hB, hbelow⟩, hF⟩ := hF
      obtain ⟨⟨-, hC, hbelow'⟩, hG⟩ := hG
      simp only [preorder, List.cons_append, List.append_assoc, List.forall₂_cons] at h
      obtain ⟨hshape, h⟩ := h
      have hbelowroots : B.roots = C.roots := hB.trans (hshape.2.trans hC.symm)
      obtain ⟨hsame, h⟩ := ihb hbelow hbelow' hbelowroots h
      obtain ⟨hsame', h⟩ := ihr hF hG (List.cons.inj hroots).2 h
      exact ⟨.node hshape hsame hsame', h⟩

/-- Trees of the start symbol with the same leaves are the same. -/
theorem Built.sameShape (hagree : g.ClaimsAgree) {F G : Forest α} (hF : F.Built g)
    (hG : G.Built g) (hroots : F.roots = [.nonTerminal g.start])
    (hroots' : G.roots = [.nonTerminal g.start]) (hword : F.word = G.word) : F.SameShape G := by
  have hp := hF.leftmost
  have hq := hG.leftmost
  rw [hroots] at hp
  rw [hroots', ← hword] at hq
  have h := hp.unique hagree F.isWord_word (.refl _) hq
  rw [← List.append_nil F.preorder, ← List.append_nil G.preorder] at h
  exact (sameShape_of_preorder hF hG (hroots.trans hroots'.symm) h).1

end Forest

/-! ## Results -/

/-- `S -> S | a`. -/
def cyclic : Grammar Unit where
  terminals := ["a"]
  nonTerminals := ["S"]
  productions := [{ left := 0, right := [.nonTerminal 0] }, { left := 0, right := [.terminal 0] }]
  start := 0

/-- A table leaves one tree for each word, and one leftmost derivation. -/
theorem unambiguous (g : Grammar α) :
    (∀ c, Compiled.ofGrammar g = .ok c → ∀ F G : Forest α, F.Built g → G.Built g →
      F.roots = [.nonTerminal g.start] → G.roots = [.nonTerminal g.start] → F.word = G.word →
        F.SameShape G) ∧
      ∀ ps qs w, IsWord w → g.Leftmost ps [.nonTerminal g.start] w →
        g.Leftmost qs [.nonTerminal g.start] w → ¬ List.Forall₂ Production.SameShape ps qs →
          ∃ fault, Compiled.ofGrammar g = .error fault := by
  have hagree : ∀ c, Compiled.ofGrammar g = .ok c → g.ClaimsAgree :=
    fun c hc => (Compiled.exact_of_ofGrammar hc).table.claimsAgree
  refine ⟨fun c hc F G hF hG => hF.sameShape (hagree c hc) hG, fun ps qs w hw hp hq hne => ?_⟩
  cases hc : Compiled.ofGrammar g with
  | error fault => exact ⟨fault, rfl⟩
  | ok c => exact absurd (hp.unique (hagree c hc) hw (.refl _) hq) hne

/-- The word `a` is derived in one step and in two. -/
theorem unambiguous_cyclic : ∃ fault, Compiled.ofGrammar cyclic = .error fault := by
  have hfront : IsWord [] := List.forall_mem_nil _
  have hshort : cyclic.Leftmost [{ left := 0, right := [.terminal 0] }] [.nonTerminal 0]
      [.terminal 0] := .expand (by decide) hfront (.done [.terminal 0])
  have hlong : cyclic.Leftmost [{ left := 0, right := [.nonTerminal 0] },
      { left := 0, right := [.terminal 0] }] [.nonTerminal 0] [.terminal 0] :=
    .expand (by decide) hfront hshort
  refine (unambiguous cyclic).2 _ _ [.terminal 0] (by decide) hshort hlong fun h => ?_
  cases h.length_eq

end PredictiveParsing
