import PredictiveParsing.Proofs.Parse.Sentence

/-!
# Derivation forests

A forest is a list of derivation trees, each node with the production that expands it and each leaf
with its token. `Built g` says that its productions are productions of `g` and fit together, and
`Grows g` that its tokens fit too.

* `sentence_iff_exists_forest`: a sentence is what some tree of the start symbol has as its tokens;
* `Grows.everywhere`: induction over the nodes of a forest;
* `Grows.predicted`: an exact table predicts every node of such a tree from the token that comes
  next.
-/

namespace PredictiveParsing

inductive Forest (α : Type) where
  | nil
  | leaf (terminal : Nat) (token : Token) (rest : Forest α)
  | node (p : Production α) (below rest : Forest α)

/-- No two productions differ in their actions only. -/
def Grammar.DistinctShapes {α : Type} (g : Grammar α) : Prop :=
  ∀ p ∈ g.productions, ∀ q ∈ g.productions, p.SameShape q → p = q

namespace Forest

variable {α : Type} {g : Grammar α}

def roots : Forest α → List Sign
  | nil => []
  | leaf i _ rest => .terminal i :: roots rest
  | node p _ rest => .nonTerminal p.left :: roots rest

def tokens : Forest α → List Token
  | nil => []
  | leaf _ token rest => token :: tokens rest
  | node _ below rest => tokens below ++ tokens rest

/-- The terminals at the leaves. -/
def word : Forest α → List Sign
  | nil => []
  | leaf i _ rest => .terminal i :: word rest
  | node _ below rest => word below ++ word rest

def Grows (g : Grammar α) : Forest α → Prop
  | nil => True
  | leaf i token rest => g.terminal token.kind = some (.terminal i) ∧ Grows g rest
  | node p below rest => (p ∈ g.productions ∧ below.roots = p.right ∧ Grows g below) ∧ Grows g rest

/-- The productions belong to the grammar and fit together, whatever the tokens at the leaves. -/
def Built (g : Grammar α) : Forest α → Prop
  | nil => True
  | leaf _ _ rest => Built g rest
  | node p below rest => (p ∈ g.productions ∧ below.roots = p.right ∧ Built g below) ∧ Built g rest

theorem Grows.built {F : Forest α} (h : F.Grows g) : F.Built g := by
  induction F with
  | nil => trivial
  | leaf i token rest ih => exact ih h.2
  | node p below rest ihb ihr =>
    obtain ⟨⟨hp, hroots, hbelow⟩, hrest⟩ := h
    exact ⟨⟨hp, hroots, ihb hbelow⟩, ihr hrest⟩

theorem Built.derives {F : Forest α} (h : F.Built g) : g.Derives F.roots F.word := by
  induction F with
  | nil => exact .refl []
  | leaf i token rest ih => exact (ih h).append_left [.terminal i]
  | node p below rest ihb ihr =>
    obtain ⟨⟨hp, hroots, hbelow⟩, hrest⟩ := h
    have hnode := (Grammar.Derives.of_production hp).trans (hroots ▸ ihb hbelow)
    exact hnode.append (ihr hrest)

theorem Grows.derives {F : Forest α} (h : F.Grows g) : g.Derives F.roots F.word :=
  h.built.derives

theorem Grows.spells {F : Forest α} (h : F.Grows g) : g.Spells F.tokens F.word := by
  induction F with
  | nil => rfl
  | leaf i token rest ih =>
    have hone : g.Spells [token] [.terminal i] := congrArg (fun s => [s]) h.1
    exact hone.append (ih h.2)
  | node p below rest ihb ihr => exact (ihb h.1.2.2).append (ihr h.2)

theorem exists_of_unfolds {u v : List Sign} (h : g.Unfolds u v) {tokens : List Token}
    (hv : g.Spells tokens v) : ∃ F : Forest α, F.Grows g ∧ F.roots = u ∧ F.tokens = tokens := by
  induction h generalizing tokens with
  | nil =>
    obtain rfl : tokens = [] := by simpa [Grammar.Spells] using hv
    exact ⟨nil, trivial, rfl, rfl⟩
  | keep s _ ih =>
    cases tokens with
    | nil => simp [Grammar.Spells] at hv
    | cons token tokens =>
      simp only [Grammar.Spells, List.map_cons, List.cons.injEq] at hv
      obtain ⟨F, hF, rfl, rfl⟩ := ih hv.2
      obtain ⟨i, -, rfl⟩ := Option.map_eq_some_iff.mp hv.1
      exact ⟨leaf i token F, ⟨hv.1, hF⟩, rfl, rfl⟩
  | @expand p hp _ _ _ _ _ ihb ihr =>
    rw [Grammar.Spells, List.map_append] at hv
    obtain ⟨before, after, rfl, hb, ha⟩ := List.map_eq_append_iff.mp hv
    obtain ⟨B, hB, hroots, rfl⟩ := ihb hb
    obtain ⟨F, hF, rfl, rfl⟩ := ihr ha
    exact ⟨node p B F, ⟨⟨hp, hroots, hB⟩, hF⟩, rfl, rfl⟩

theorem sentence_iff_exists_forest {tokens : List Token} :
    g.Sentence tokens ↔
      ∃ F : Forest α, F.Grows g ∧ F.roots = [.nonTerminal g.start] ∧ F.tokens = tokens := by
  constructor
  · rintro ⟨u, hu, hd⟩
    exact exists_of_unfolds (Grammar.derives_iff_unfolds.mp hd) hu
  · rintro ⟨F, hF, hroots, rfl⟩
    exact ⟨F.word, hF.spells, hroots ▸ hF.derives⟩

/-! ## Other tokens at the leaves -/

def map (f : Token → Token) : Forest α → Forest α
  | nil => nil
  | leaf i token rest => leaf i (f token) (map f rest)
  | node p below rest => node p (map f below) (map f rest)

section Map

variable {f : Token → Token}

@[simp] theorem roots_map (F : Forest α) : (F.map f).roots = F.roots := by
  induction F with
  | nil => rfl
  | leaf i token rest ih => exact congrArg (List.cons _) ih
  | node p below rest _ ihr => exact congrArg (List.cons _) ihr

theorem map_eq_nil {F : Forest α} (h : F.map f = nil) : F = nil := by
  cases F with
  | nil => rfl
  | leaf => cases h
  | node => cases h

theorem map_eq_leaf {F rest : Forest α} {i : Nat} {token : Token}
    (h : F.map f = leaf i token rest) :
    ∃ token' rest', F = leaf i token' rest' ∧ f token' = token ∧ rest'.map f = rest := by
  cases F with
  | nil => cases h
  | leaf i' token' rest' =>
    cases h
    exact ⟨token', rest', rfl, rfl, rfl⟩
  | node => cases h

theorem map_eq_node {F below rest : Forest α} {p : Production α}
    (h : F.map f = node p below rest) :
    ∃ below' rest', F = node p below' rest' ∧ below'.map f = below ∧ rest'.map f = rest := by
  cases F with
  | nil => cases h
  | leaf => cases h
  | node p' below' rest' =>
    cases h
    exact ⟨below', rest', rfl, rfl, rfl⟩

/-- Tokens that look like those of a forest can take their places. -/
theorem exists_map_eq {G : Forest α} {tokens : List Token} (h : tokens.map f = G.tokens) :
    ∃ F : Forest α, F.map f = G ∧ F.tokens = tokens := by
  induction G generalizing tokens with
  | nil => exact ⟨nil, rfl, (List.map_eq_nil_iff.mp h).symm⟩
  | leaf i token G ih =>
    obtain ⟨token, tokens, rfl, rfl, hrest⟩ := List.map_eq_cons_iff.mp h
    obtain ⟨F, rfl, rfl⟩ := ih hrest
    exact ⟨leaf i token F, rfl, rfl⟩
  | node p B G ihb ihr =>
    obtain ⟨first, last, rfl, hb, hr⟩ := List.map_eq_append_iff.mp h
    obtain ⟨B, rfl, rfl⟩ := ihb hb
    obtain ⟨F, rfl, rfl⟩ := ihr hr
    exact ⟨node p B F, rfl, rfl⟩

theorem tokens_map (F : Forest α) : (F.map f).tokens = F.tokens.map f := by
  induction F with
  | nil => rfl
  | leaf i token rest ih => exact congrArg (List.cons _) ih
  | node p below rest ihb ihr => rw [map, tokens, ihb, ihr, tokens, List.map_append]

theorem grows_map_iff (hf : ∀ token, (f token).kind = token.kind) {F : Forest α} :
    (F.map f).Grows g ↔ F.Grows g := by
  induction F with
  | nil => rfl
  | leaf i token rest ih => rw [map, Grows, Grows, hf, ih]
  | node p below rest ihb ihr => rw [map, Grows, Grows, ihb, ihr, roots_map]

end Map

/-! ## Every node -/

/-- `K` holds of every node, given by its production and what is below it. -/
def Everywhere (K : Production α → Forest α → Prop) : Forest α → Prop
  | nil => True
  | leaf _ _ rest => Everywhere K rest
  | node p below rest => (K p below ∧ Everywhere K below) ∧ Everywhere K rest

/-- What holds of a node because it holds everywhere below it holds everywhere. -/
theorem Grows.everywhere {K : Production α → Forest α → Prop}
    (h : ∀ p ∈ g.productions, ∀ below, below.roots = p.right → below.Grows g →
      below.Everywhere K → K p below) {F : Forest α} (hF : F.Grows g) : F.Everywhere K := by
  induction F with
  | nil => trivial
  | leaf i token rest ih => exact ih hF.2
  | node p below rest ihb ihr =>
    obtain ⟨⟨hp, hroots, hbelow⟩, hrest⟩ := hF
    exact ⟨⟨h p hp below hroots hbelow (ihb hbelow), ihb hbelow⟩, ihr hrest⟩

/-! ## Prediction -/

/-- The lookahead when `tokens` are left. -/
def current (g : Grammar α) (last : Lookahead) (tokens : List Token) : Lookahead :=
  (tokens.map (Lookahead.ofToken g)).headD last

theorem heads_current {last : Lookahead} (hlast : last.sign = some .pound) {tokens : List Token}
    {u : List Sign} (hu : g.Spells tokens u) : Heads (current g last tokens).sign u := by
  cases tokens with
  | nil =>
    obtain rfl : u = [] := List.map_eq_nil_iff.mp hu.symm
    rw [current, List.map_nil, List.headD_nil, hlast]
    rfl
  | cons token tokens =>
    cases u with
    | nil => simp [Grammar.Spells] at hu
    | cons s u =>
      simp only [Grammar.Spells, List.map_cons, List.cons.injEq] at hu
      exact heads_ofToken hu.1 u

/-- The table chooses every node's production when the tokens below the node come next, then those
below the rest of the forest and then `after`. -/
def Predicted (g : Grammar α) (t : Table) (last : Lookahead) : Forest α → List Token → Prop
  | nil, _ => True
  | leaf i token rest, after =>
    g.terminal token.kind = some (.terminal i) ∧ Predicted g t last rest after
  | node p below rest, after =>
    (∃ i, (current g last (below.tokens ++ (rest.tokens ++ after))).sign.bind (t.get? p.left) =
        some i ∧ g.productions[i]? = some p ∧ below.roots = p.right ∧
      Predicted g t last below (rest.tokens ++ after)) ∧
    Predicted g t last rest after

theorem Grows.predicted {c : Compiled} (hc : c.Exact g) (hshapes : g.DistinctShapes)
    {last : Lookahead} (hlast : last.sign = some .pound) {F : Forest α} (hF : F.Grows g)
    {pre st : List Sign} {after : List Token}
    (hreach : g.Derives [.nonTerminal g.start] (pre ++ (F.roots ++ st)))
    (hafter : ∃ u, g.Spells after u ∧ g.Derives st u) : F.Predicted g c.table last after := by
  induction F generalizing pre st after with
  | nil => trivial
  | leaf i token rest ih =>
    have hpast : g.Derives [.nonTerminal g.start] (pre ++ [.terminal i] ++ (rest.roots ++ st)) := by
      simpa [roots] using hreach
    exact ⟨hF.1, ih hF.2 hpast hafter⟩
  | node p below rest ihb ihr =>
    obtain ⟨⟨hp, hroots, hbelow⟩, hrest⟩ := hF
    obtain ⟨u, hu, hst⟩ := hafter
    have hreach' : g.Derives [.nonTerminal g.start]
        (pre ++ .nonTerminal p.left :: (rest.roots ++ st)) := hreach
    have hbelowreach := hreach'.trans (.append_left pre
      ((Grammar.Derives.of_production hp).append_right (rest.roots ++ st)))
    have hdown : g.Derives (rest.roots ++ st) (rest.word ++ u) := hrest.derives.append hst
    have hword : g.Spells (rest.tokens ++ after) (rest.word ++ u) := hrest.spells.append hu
    have hpast : g.Derives [.nonTerminal g.start]
        (pre ++ [.nonTerminal p.left] ++ (rest.roots ++ st)) := by
      simpa [roots] using hreach
    refine ⟨?_, ihr hrest hpast ⟨u, hu, hst⟩⟩
    -- Any production that leads to the tokens claims the cell, so the one in the cell is `p`.
    obtain ⟨s, hs, hclaims⟩ := Grammar.claims_of_derives hp hreach'
      (heads_current hlast (hbelow.spells.append hword)) (hroots ▸ hbelow.derives.append hdown)
    obtain ⟨i, q, hi, hq, hsame⟩ := hc.table.chosen p hp s hclaims
    obtain rfl : q = p := hshapes q (List.mem_of_getElem? hq) p hp hsame
    refine ⟨i, ?_, hq, hroots, ihb hbelow (hroots ▸ hbelowreach) ⟨_, hword, hdown⟩⟩
    rw [hs, Option.bind_some, hi]

end Forest

end PredictiveParsing
