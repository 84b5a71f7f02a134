import PredictiveParsing.Proofs.Cminus.Trees

/-!
# Reading a program off its derivation tree

Every tree of the grammar is, but for lines and texts that do not matter, the tree of a program.
What recurs in trees are the `Part`s; a node of one is read when everything below it is.

* `sentence_iff_exists_source`: the sentences of C-minus are what programs spell.
-/

namespace PredictiveParsing.Cminus

open Forest (leaf nil)

/-! ## Parts -/

/-- The non-terminals that recur below themselves. -/
inductive Part where
  | phrase (c : Category)
  | moreParameters
  | locals
  | definitions

namespace Part

def Syntax : Part → Type
  | phrase c => Phrase c
  | moreParameters => List Parameter
  | locals => List Variable
  | definitions => Source

def root : Part → Nat
  | phrase c => c.root
  | moreParameters => Place.paramFollow
  | locals => Place.localDefineList
  | definitions => Place.defineList

def tree : (q : Part) → q.Syntax → Forest Action → Forest Action
  | phrase _ => Phrase.tree
  | moreParameters => moreParametersTree
  | locals => localsTree
  | definitions => definitionsTree

end Part

/-- A node that belongs to a part is the tree of some piece of syntax. -/
def Reads (p : Production Action) (below : Forest Action) : Prop :=
  ∀ q : Part, p.left = q.root → ∃ x : q.Syntax, ∀ rest : Forest Action,
    (Forest.node p below rest).map Token.bare = q.tree x (rest.map Token.bare)

/-- A forest of the grammar where every part is read. -/
structure Known (F : Forest Action) (roots : List Sign) : Prop where
  grows : F.Grows resolved
  reads : F.Everywhere Reads
  roots : F.roots = roots

/-- The first node has this form. -/
def Form.Stands (f : Form) (F : Forest Action) (u : List Sign) : Prop :=
  ∃ below rest, Known below f.production.right ∧ Known rest u ∧
    F.map Token.bare = f.tree (below.map Token.bare) (rest.map Token.bare)

/-- The first node has one of these forms. -/
def AnyStands : List Form → Forest Action → List Sign → Prop
  | [], _, _ => False
  | f :: fs, F, u => f.Stands F u ∨ AnyStands fs F u

theorem AnyStands.of_mem {f : Form} {fs : List Form} {F : Forest Action} {u : List Sign}
    (hf : f ∈ fs) (h : f.Stands F u) : AnyStands fs F u := by
  induction fs with
  | nil => cases hf
  | cons f' fs ih =>
    rcases List.mem_cons.mp hf with rfl | hf
    · exact .inl h
    · exact .inr (ih hf)

namespace Known

variable {F : Forest Action} {u : List Sign}

theorem nil (h : Known F []) : F = nil := by
  obtain ⟨-, -, hroots⟩ := h
  cases F with
  | nil => rfl
  | leaf => cases hroots
  | node => cases hroots

theorem leaf {i : Nat} (h : Known F (.terminal i :: u)) :
    ∃ token rest, F = leaf i token rest ∧ token.kind = kindAt i ∧ Known rest u := by
  obtain ⟨hgrows, hreads, hroots⟩ := h
  cases F with
  | nil => cases hroots
  | leaf i' token rest =>
    cases hroots
    exact ⟨token, rest, rfl, kind_of_terminal hgrows.1, hgrows.2, hreads, rfl⟩
  | node => cases hroots

theorem symbol {n : Nat} (h : Known F (.terminal (n + 4) :: u)) (kind : String)
    (hkind : kindAt (n + 4) = kind) :
    ∃ rest, Known rest u ∧
      F.map Token.bare = Forest.leaf (n + 4) (Cminus.symbol kind) (rest.map Token.bare) := by
  obtain ⟨token, rest, rfl, htoken, hrest⟩ := h.leaf
  have hplace : kindAt (n + 4) ∉ ["int", "void", "id", "num"] := fun hmem =>
    Nat.not_lt.mpr (Nat.le_add_left 4 n) (kindAt_mem_iff.mp hmem)
  refine ⟨rest, hrest, ?_⟩
  rw [Forest.map, Token.bare, htoken, if_neg hplace, hkind, Cminus.symbol]

theorem lexeme {i : Nat} (h : Known F (.terminal i :: u)) (kind : String) (hkind : kindAt i = kind)
    (hplace : i < 4) :
    ∃ text rest, Known rest u ∧
      F.map Token.bare = Forest.leaf i (Cminus.lexeme kind text) (rest.map Token.bare) := by
  obtain ⟨token, rest, rfl, htoken, hrest⟩ := h.leaf
  refine ⟨token.text, rest, hrest, ?_⟩
  rw [Forest.map, Token.bare, htoken, if_pos (kindAt_mem_iff.mpr hplace), hkind, Cminus.lexeme]

theorem node {n : Nat} (h : Known F (.nonTerminal n :: u)) :
    ∃ f ∈ Form.of n, ∃ below rest, F = .node f.production below rest ∧ f.production.left = n ∧
      Known below f.production.right ∧ Known rest u ∧ Reads f.production below := by
  obtain ⟨hgrows, hreads, hroots⟩ := h
  cases F with
  | nil => cases hroots
  | leaf => cases hroots
  | node p below rest =>
    cases hroots
    obtain ⟨⟨hp, hright, hbelow⟩, hrest⟩ := hgrows
    obtain ⟨⟨hread, hreadsb⟩, hreadsr⟩ := hreads
    obtain ⟨f, hf, rfl⟩ := exists_form hp
    exact ⟨f, hf, below, rest, rfl, rfl, ⟨hbelow, hreadsb, hright⟩, ⟨hrest, hreadsr, rfl⟩, hread⟩

theorem forms {n : Nat} (h : Known F (.nonTerminal n :: u)) (fs : List Form)
    (hfs : Form.of n = fs) : AnyStands fs F u := by
  obtain ⟨f, hf, below, rest, rfl, -, hbelow, hrest, -⟩ := h.node
  exact .of_mem (hfs ▸ hf) ⟨below, rest, hbelow, hrest, rfl⟩

theorem only {n : Nat} (h : Known F (.nonTerminal n :: u)) (f : Form)
    (hf : Form.of n = [f]) : f.Stands F u :=
  (h.forms [f] hf).resolve_right id

theorem part (q : Part) (h : Known F (.nonTerminal q.root :: u)) :
    ∃ x : q.Syntax, ∃ rest, Known rest u ∧
      F.map Token.bare = q.tree x (rest.map Token.bare) := by
  obtain ⟨f, -, below, rest, rfl, hleft, -, hrest, hread⟩ := h.node
  obtain ⟨x, hx⟩ := hread q hleft
  exact ⟨x, rest, hrest, hx rest⟩

theorem phrase (c : Category) (h : Known F (.nonTerminal c.root :: u)) :
    ∃ e : Phrase c, ∃ rest, Known rest u ∧ F.map Token.bare = e.tree (rest.map Token.bare) :=
  h.part (.phrase c)

/-! ## Pieces that do not recur -/

/-- The node of an operator. -/
theorem operator {f : Form} {n : Nat} (h : f.Stands F u) (kind : String)
    (hright : f.production.right = [.terminal (n + 4)]) (hkind : kindAt (n + 4) = kind) :
    ∃ rest, Known rest u ∧ F.map Token.bare =
      f.tree (Forest.leaf (n + 4) (Cminus.symbol kind) .nil) (rest.map Token.bare) := by
  obtain ⟨below, rest, hbelow, hrest, he⟩ := h
  rw [hright] at hbelow
  obtain ⟨b, hb, heb⟩ := hbelow.symbol kind hkind
  obtain rfl := hb.nil
  exact ⟨rest, hrest, by rw [he, heb]; rfl⟩

theorem relOp (h : Known F (.nonTerminal Place.relOp :: u)) :
    ∃ op : RelOp, ∃ rest, Known rest u ∧ F.map Token.bare =
      (Form.relOp op).tree (Forest.leaf op.place (Cminus.symbol op.kind) .nil)
        (rest.map Token.bare) := by
  rcases h.forms [.relOp .le, .relOp .lt, .relOp .gt, .relOp .ge, .relOp .eq, .relOp .ne] rfl with
    h | h | h | h | h | h | ⟨⟨⟩⟩
  · exact ⟨.le, operator h "<=" rfl rfl⟩
  · exact ⟨.lt, operator h "<" rfl rfl⟩
  · exact ⟨.gt, operator h ">" rfl rfl⟩
  · exact ⟨.ge, operator h ">=" rfl rfl⟩
  · exact ⟨.eq, operator h "==" rfl rfl⟩
  · exact ⟨.ne, operator h "!=" rfl rfl⟩

theorem addOp (h : Known F (.nonTerminal Place.addOp :: u)) :
    ∃ op : AddOp, ∃ rest, Known rest u ∧ F.map Token.bare =
      (Form.addOp op).tree (Forest.leaf op.place (Cminus.symbol op.kind) .nil)
        (rest.map Token.bare) := by
  rcases h.forms [.addOp .plus, .addOp .minus] rfl with h | h | ⟨⟨⟩⟩
  · exact ⟨.plus, operator h "+" rfl rfl⟩
  · exact ⟨.minus, operator h "-" rfl rfl⟩

theorem mulOp (h : Known F (.nonTerminal Place.mulOp :: u)) :
    ∃ op : MulOp, ∃ rest, Known rest u ∧ F.map Token.bare =
      (Form.mulOp op).tree (Forest.leaf op.place (Cminus.symbol op.kind) .nil)
        (rest.map Token.bare) := by
  rcases h.forms [.mulOp .times, .mulOp .div] rfl with h | h | ⟨⟨⟩⟩
  · exact ⟨.times, operator h "*" rfl rfl⟩
  · exact ⟨.div, operator h "/" rfl rfl⟩

theorem call (h : Known F (.nonTerminal Place.callFollow :: u)) :
    ∃ args : Phrase .arguments, ∃ rest, Known rest u ∧
      F.map Token.bare = callTree args.tree (rest.map Token.bare) := by
  obtain ⟨below, rest, h₁, hrest, he⟩ := h.only .call rfl
  obtain ⟨b₁, h₂, he₁⟩ := h₁.symbol "(" rfl
  obtain ⟨args, b₂, h₃, he₂⟩ := h₂.phrase .arguments
  obtain ⟨b₃, h₄, he₃⟩ := h₃.symbol ")" rfl
  obtain rfl := h₄.nil
  exact ⟨args, rest, hrest, by rw [he, he₁, he₂, he₃]; rfl⟩

theorem braced
    (h : Known F (.terminal Place.braceOpen :: .nonTerminal Place.codeList ::
      .terminal Place.braceClose :: u)) :
    ∃ body : Phrase .statements, ∃ rest, Known rest u ∧
      F.map Token.bare = bracedTree body.tree (rest.map Token.bare) := by
  obtain ⟨b₁, h₁, he₁⟩ := h.symbol "\x7b" rfl
  obtain ⟨body, b₂, h₂, he₂⟩ := h₁.phrase .statements
  obtain ⟨b₃, h₃, he₃⟩ := h₂.symbol "\x7d" rfl
  exact ⟨body, b₃, h₃, by rw [he₁, he₂, he₃]; rfl⟩

/-- What stands behind the name and the index in an assignment. -/
theorem assigned
    (h : Known F [.terminal Place.assign, .nonTerminal Place.expression,
      .terminal Place.semicolon]) :
    ∃ value : Phrase .expression, F.map Token.bare =
      .leaf Place.assign (Cminus.symbol "=")
        (value.tree (.leaf Place.semicolon (Cminus.symbol ";") .nil)) := by
  obtain ⟨b₁, h₁, he₁⟩ := h.symbol "=" rfl
  obtain ⟨value, b₂, h₂, he₂⟩ := h₁.phrase .expression
  obtain ⟨b₃, h₃, he₃⟩ := h₂.symbol ";" rfl
  obtain rfl := h₃.nil
  exact ⟨value, by rw [he₁, he₂, he₃]; rfl⟩

theorem type (h : Known F (.nonTerminal Place.type :: u)) :
    ∃ t : TypeName, ∃ rest, Known rest u ∧ F.map Token.bare = t.tree (rest.map Token.bare) := by
  rcases h.forms [.type .int, .type .void] rfl with
    ⟨below, rest, hbelow, hrest, he⟩ | ⟨below, rest, hbelow, hrest, he⟩ | ⟨⟨⟩⟩
  · obtain ⟨text, b, hb, heb⟩ := hbelow.lexeme "int" rfl (by decide)
    obtain rfl := hb.nil
    exact ⟨⟨.int, text⟩, rest, hrest, by rw [he, heb]; rfl⟩
  · obtain ⟨text, b, hb, heb⟩ := hbelow.lexeme "void" rfl (by decide)
    obtain rfl := hb.nil
    exact ⟨⟨.void, text⟩, rest, hrest, by rw [he, heb]; rfl⟩

theorem declarator (h : Known F (.nonTerminal Place.type :: .terminal Place.id :: u)) :
    ∃ t name rest, Known rest u ∧
      F.map Token.bare = declaratorTree t name (rest.map Token.bare) := by
  obtain ⟨t, b₁, h₁, he₁⟩ := h.type
  obtain ⟨name, b₂, h₂, he₂⟩ := h₁.lexeme "id" rfl (by decide)
  exact ⟨t, name, b₂, h₂, by rw [he₁, he₂]; rfl⟩

theorem length (h : Known F [.nonTerminal Place.varDefineFollow]) :
    ∃ length, F.map Token.bare = lengthTree length := by
  rcases h.forms [.scalar, .array] rfl with
    ⟨below, rest, h₁, hrest, he⟩ | ⟨below, rest, h₁, hrest, he⟩ | ⟨⟨⟩⟩
  · obtain ⟨b₁, h₂, he₁⟩ := h₁.symbol ";" rfl
    obtain rfl := h₂.nil
    obtain rfl := hrest.nil
    exact ⟨none, by rw [he, he₁]; rfl⟩
  · obtain ⟨b₁, h₂, he₁⟩ := h₁.symbol "[" rfl
    obtain ⟨text, b₂, h₃, he₂⟩ := h₂.lexeme "num" rfl (by decide)
    obtain ⟨b₃, h₄, he₃⟩ := h₃.symbol "]" rfl
    obtain ⟨b₄, h₅, he₄⟩ := h₄.symbol ";" rfl
    obtain rfl := h₅.nil
    obtain rfl := hrest.nil
    exact ⟨some text, by rw [he, he₁, he₂, he₃, he₄]; rfl⟩

theorem localVariable (h : Known F (.nonTerminal Place.localVarDefine :: u)) :
    ∃ v : Variable, ∃ rest, Known rest u ∧
      F.map Token.bare = v.localTree (rest.map Token.bare) := by
  obtain ⟨below, rest, h₁, hrest, he⟩ := h.only .localVariable rfl
  obtain ⟨t, name, b₁, h₂, he₁⟩ := h₁.declarator
  obtain ⟨length, he₂⟩ := h₂.length
  exact ⟨⟨t, name, length⟩, rest, hrest, by rw [he, he₁, he₂]; rfl⟩

theorem parameter (h : Known F (.nonTerminal Place.param :: u)) :
    ∃ p : Parameter, ∃ rest, Known rest u ∧ F.map Token.bare = p.tree (rest.map Token.bare) := by
  obtain ⟨below, rest, h₁, hrest, he⟩ := h.only .parameter rfl
  obtain ⟨t, name, b₁, h₂, he₁⟩ := h₁.declarator
  rcases h₂.forms [.subscript, .noSubscript] rfl with
    ⟨below', rest', h₃, hrest', he₂⟩ | ⟨below', rest', h₃, hrest', he₂⟩ | ⟨⟨⟩⟩
  · obtain ⟨b₃, h₄, he₃⟩ := h₃.symbol "[" rfl
    obtain ⟨b₄, h₅, he₄⟩ := h₄.symbol "]" rfl
    obtain rfl := h₅.nil
    obtain rfl := hrest'.nil
    exact ⟨⟨t, name, true⟩, rest, hrest, by rw [he, he₁, he₂, he₃, he₄]; rfl⟩
  · obtain rfl := h₃.nil
    obtain rfl := hrest'.nil
    exact ⟨⟨t, name, false⟩, rest, hrest, by rw [he, he₁, he₂]; rfl⟩

theorem parameters (h : Known F (.nonTerminal Place.params :: u)) :
    ∃ ps, ∃ rest, Known rest u ∧ F.map Token.bare = parametersTree ps (rest.map Token.bare) := by
  rcases h.forms [.someParameters, .noParameters] rfl with
    ⟨below, rest, h₁, hrest, he⟩ | ⟨below, rest, h₁, hrest, he⟩ | ⟨⟨⟩⟩
  · obtain ⟨below', rest', h₂, hrest', he₁⟩ := h₁.only .parameterList rfl
    obtain ⟨p, b₂, h₃, he₂⟩ := h₂.parameter
    obtain ⟨ps, b₃, h₄, he₃⟩ := h₃.part .moreParameters
    obtain rfl := h₄.nil
    obtain rfl := hrest'.nil
    exact ⟨p :: ps, rest, hrest, by rw [he, he₁, he₂, he₃]; rfl⟩
  · obtain rfl := h₁.nil
    exact ⟨[], rest, hrest, by rw [he]; rfl⟩

theorem block (h : Known F [.nonTerminal Place.codeBlock]) :
    ∃ locals body, F.map Token.bare = blockTree locals body := by
  obtain ⟨below, rest, h₁, hrest, he⟩ := h.only .block rfl
  obtain ⟨b₁, h₂, he₁⟩ := h₁.symbol "\x7b" rfl
  obtain ⟨locals, b₂, h₃, he₂⟩ := h₂.part .locals
  obtain ⟨body, b₃, h₄, he₃⟩ := h₃.phrase .statements
  obtain ⟨b₄, h₅, he₄⟩ := h₄.symbol "\x7d" rfl
  obtain rfl := h₅.nil
  obtain rfl := hrest.nil
  exact ⟨locals, body, by rw [he, he₁, he₂, he₃, he₄]; rfl⟩

theorem definition (h : Known F (.nonTerminal Place.define :: u)) :
    ∃ d : Definition, ∃ rest, Known rest u ∧
      F.map Token.bare = d.tree (rest.map Token.bare) := by
  obtain ⟨below, rest, h₁, hrest, he⟩ := h.only .define rfl
  obtain ⟨t, name, b₁, h₂, he₁⟩ := h₁.declarator
  rcases h₂.forms [.variableDefine, .functionDefine] rfl with
    ⟨below', rest', h₃, hrest', he₂⟩ | ⟨below', rest', h₃, hrest', he₂⟩ | ⟨⟨⟩⟩
  · obtain ⟨length, he₃⟩ := h₃.length
    obtain rfl := hrest'.nil
    exact ⟨.var ⟨t, name, length⟩, rest, hrest, by rw [he, he₁, he₂, he₃]; rfl⟩
  · obtain ⟨below₄, rest₄, h₄, hrest₄, he₄⟩ := h₃.only .function rfl
    obtain ⟨b₅, h₅, he₅⟩ := h₄.symbol "(" rfl
    obtain ⟨ps, b₆, h₆, he₆⟩ := h₅.parameters
    obtain ⟨b₇, h₇, he₇⟩ := h₆.symbol ")" rfl
    obtain ⟨locals, body, he₈⟩ := h₇.block
    obtain rfl := hrest'.nil
    obtain rfl := hrest₄.nil
    exact ⟨.function ⟨t, name, ps, locals, body⟩, rest, hrest,
      by rw [he, he₁, he₂, he₄, he₅, he₆, he₇, he₈]; rfl⟩

end Known

/-! ## Forms of phrases -/

/-- The syntax whose tree is a node of this form, with this below it. -/
def Form.IsPhrase (f : Form) (c : Category) (below : Forest Action) : Prop :=
  ∃ e : Phrase c, ∀ rest, f.tree (below.map Token.bare) rest = e.tree rest

section Phrases

variable {F : Forest Action}

theorem isPhrase_expression (h : Known F Form.expression.production.right) :
    Form.expression.IsPhrase .expression F := by
  obtain ⟨l, b₁, h₁, he₁⟩ := h.phrase .sum
  rcases h₁.forms [.compare, .noComparison] rfl with
    ⟨below, rest, h₂, hrest, he₂⟩ | ⟨below, rest, h₂, hrest, he₂⟩ | ⟨⟨⟩⟩
  · obtain ⟨op, b₃, h₃, he₃⟩ := h₂.relOp
    obtain ⟨r, b₄, h₄, he₄⟩ := h₃.phrase .sum
    obtain rfl := h₄.nil
    obtain rfl := hrest.nil
    exact ⟨.compare l op r, fun _ => by rw [he₁, he₂, he₃, he₄]; rfl⟩
  · obtain rfl := h₂.nil
    obtain rfl := hrest.nil
    exact ⟨.plain l, fun _ => by rw [he₁, he₂]; rfl⟩

theorem isPhrase_sum (h : Known F Form.sum.production.right) : Form.sum.IsPhrase .sum F := by
  obtain ⟨t, b₁, h₁, he₁⟩ := h.phrase .term
  obtain ⟨last, b₂, h₂, he₂⟩ := h₁.phrase .sumTail
  obtain rfl := h₂.nil
  exact ⟨.sum t last, fun _ => by rw [he₁, he₂]; rfl⟩

theorem isPhrase_add (h : Known F Form.add.production.right) : Form.add.IsPhrase .sumTail F := by
  obtain ⟨op, b₁, h₁, he₁⟩ := h.addOp
  obtain ⟨t, b₂, h₂, he₂⟩ := h₁.phrase .term
  obtain ⟨last, b₃, h₃, he₃⟩ := h₂.phrase .sumTail
  obtain rfl := h₃.nil
  exact ⟨.add op t last, fun _ => by rw [he₁, he₂, he₃]; rfl⟩

theorem isPhrase_term (h : Known F Form.term.production.right) : Form.term.IsPhrase .term F := by
  obtain ⟨f, b₁, h₁, he₁⟩ := h.phrase .factor
  obtain ⟨last, b₂, h₂, he₂⟩ := h₁.phrase .termTail
  obtain rfl := h₂.nil
  exact ⟨.term f last, fun _ => by rw [he₁, he₂]; rfl⟩

theorem isPhrase_multiply (h : Known F Form.multiply.production.right) :
    Form.multiply.IsPhrase .termTail F := by
  obtain ⟨op, b₁, h₁, he₁⟩ := h.mulOp
  obtain ⟨f, b₂, h₂, he₂⟩ := h₁.phrase .factor
  obtain ⟨last, b₃, h₃, he₃⟩ := h₂.phrase .termTail
  obtain rfl := h₃.nil
  exact ⟨.multiply op f last, fun _ => by rw [he₁, he₂, he₃]; rfl⟩

theorem isPhrase_group (h : Known F Form.group.production.right) :
    Form.group.IsPhrase .factor F := by
  obtain ⟨b₁, h₁, he₁⟩ := h.symbol "(" rfl
  obtain ⟨e, b₂, h₂, he₂⟩ := h₁.phrase .expression
  obtain ⟨b₃, h₃, he₃⟩ := h₂.symbol ")" rfl
  obtain rfl := h₃.nil
  exact ⟨.group e, fun _ => by rw [he₁, he₂, he₃]; rfl⟩

theorem isPhrase_name (h : Known F Form.name.production.right) : Form.name.IsPhrase .factor F := by
  obtain ⟨name, b₁, h₁, he₁⟩ := h.lexeme "id" rfl (by decide)
  rcases h₁.forms [.element, .callFactor, .var] rfl with
    ⟨below, rest, h₂, hrest, he₂⟩ | ⟨below, rest, h₂, hrest, he₂⟩ |
    ⟨below, rest, h₂, hrest, he₂⟩ | ⟨⟨⟩⟩
  · obtain ⟨b₃, h₃, he₃⟩ := h₂.symbol "[" rfl
    obtain ⟨index, b₄, h₄, he₄⟩ := h₃.phrase .expression
    obtain ⟨b₅, h₅, he₅⟩ := h₄.symbol "]" rfl
    obtain rfl := h₅.nil
    obtain rfl := hrest.nil
    exact ⟨.element name index, fun _ => by rw [he₁, he₂, he₃, he₄, he₅]; rfl⟩
  · obtain ⟨args, b₃, h₃, he₃⟩ := h₂.call
    obtain rfl := h₃.nil
    obtain rfl := hrest.nil
    exact ⟨.call name args, fun _ => by rw [he₁, he₂, he₃]; rfl⟩
  · obtain rfl := h₂.nil
    obtain rfl := hrest.nil
    exact ⟨.var name, fun _ => by rw [he₁, he₂]; rfl⟩

theorem isPhrase_number (h : Known F Form.number.production.right) :
    Form.number.IsPhrase .factor F := by
  obtain ⟨text, b₁, h₁, he₁⟩ := h.lexeme "num" rfl (by decide)
  obtain rfl := h₁.nil
  exact ⟨.number text, fun _ => by rw [he₁]; rfl⟩

theorem isPhrase_someArguments (h : Known F Form.someArguments.production.right) :
    Form.someArguments.IsPhrase .arguments F := by
  obtain ⟨below, rest, h₁, hrest, he₁⟩ := h.only .argumentList rfl
  obtain ⟨e, b₂, h₂, he₂⟩ := h₁.phrase .expression
  obtain ⟨last, b₃, h₃, he₃⟩ := h₂.phrase .argumentTail
  obtain rfl := h₃.nil
  obtain rfl := hrest.nil
  exact ⟨.arguments e last, fun _ => by rw [he₁, he₂, he₃]; rfl⟩

theorem isPhrase_moreArguments (h : Known F Form.moreArguments.production.right) :
    Form.moreArguments.IsPhrase .argumentTail F := by
  obtain ⟨b₁, h₁, he₁⟩ := h.symbol "," rfl
  obtain ⟨e, b₂, h₂, he₂⟩ := h₁.phrase .expression
  obtain ⟨last, b₃, h₃, he₃⟩ := h₂.phrase .argumentTail
  obtain rfl := h₃.nil
  exact ⟨.argument e last, fun _ => by rw [he₁, he₂, he₃]; rfl⟩

theorem isPhrase_normal (h : Known F Form.normal.production.right) :
    Form.normal.IsPhrase .statement F := by
  rcases h.forms [.skip, .named] rfl with
    ⟨below, rest, h₁, hrest, he₁⟩ | ⟨below, rest, h₁, hrest, he₁⟩ | ⟨⟨⟩⟩
  · obtain ⟨b₂, h₂, he₂⟩ := h₁.symbol ";" rfl
    obtain rfl := h₂.nil
    obtain rfl := hrest.nil
    exact ⟨.skip, fun _ => by rw [he₁, he₂]; rfl⟩
  obtain ⟨name, b₂, h₂, he₂⟩ := h₁.lexeme "id" rfl (by decide)
  obtain rfl := hrest.nil
  rcases h₂.forms [.assign, .invoke] rfl with
    ⟨below', rest', h₃, hrest', he₃⟩ | ⟨below', rest', h₃, hrest', he₃⟩ | ⟨⟨⟩⟩
  · obtain rfl := hrest'.nil
    rcases h₃.forms [.index, .noIndex] rfl with
      ⟨below₄, rest₄, h₄, hrest₄, he₄⟩ | ⟨below₄, rest₄, h₄, hrest₄, he₄⟩ | ⟨⟨⟩⟩
    · obtain ⟨b₅, h₅, he₅⟩ := h₄.symbol "[" rfl
      obtain ⟨index, b₆, h₆, he₆⟩ := h₅.phrase .expression
      obtain ⟨b₇, h₇, he₇⟩ := h₆.symbol "]" rfl
      obtain rfl := h₇.nil
      obtain ⟨value, he₈⟩ := hrest₄.assigned
      exact ⟨.assignElement name index value,
        fun _ => by rw [he₁, he₂, he₃, he₄, he₅, he₆, he₇, he₈]; rfl⟩
    · obtain rfl := h₄.nil
      obtain ⟨value, he₅⟩ := hrest₄.assigned
      exact ⟨.assign name value, fun _ => by rw [he₁, he₂, he₃, he₄, he₅]; rfl⟩
  · obtain ⟨args, b₄, h₄, he₄⟩ := h₃.call
    obtain ⟨b₅, h₅, he₅⟩ := h₄.symbol ";" rfl
    obtain rfl := h₅.nil
    obtain rfl := hrest'.nil
    exact ⟨.invoke name args, fun _ => by rw [he₁, he₂, he₃, he₄, he₅]; rfl⟩

theorem isPhrase_selection (h : Known F Form.selection.production.right) :
    Form.selection.IsPhrase .statement F := by
  obtain ⟨below, rest, h₁, hrest, he₁⟩ := h.only .choose rfl
  obtain ⟨b₂, h₂, he₂⟩ := h₁.symbol "if" rfl
  obtain ⟨b₃, h₃, he₃⟩ := h₂.symbol "(" rfl
  obtain ⟨condition, b₄, h₄, he₄⟩ := h₃.phrase .expression
  obtain ⟨b₅, h₅, he₅⟩ := h₄.symbol ")" rfl
  obtain ⟨body, b₆, h₆, he₆⟩ := h₅.braced
  obtain rfl := hrest.nil
  rcases h₆.forms [.otherwise, .noElse] rfl with
    ⟨below', rest', h₇, hrest', he₇⟩ | ⟨below', rest', h₇, hrest', he₇⟩ | ⟨⟨⟩⟩
  · obtain ⟨b₈, h₈, he₈⟩ := h₇.symbol "else" rfl
    obtain ⟨other, b₉, h₉, he₉⟩ := h₈.braced
    obtain rfl := h₉.nil
    obtain rfl := hrest'.nil
    exact ⟨.chooseElse condition body other,
      fun _ => by rw [he₁, he₂, he₃, he₄, he₅, he₆, he₇, he₈, he₉]; rfl⟩
  · obtain rfl := h₇.nil
    obtain rfl := hrest'.nil
    exact ⟨.choose condition body, fun _ => by rw [he₁, he₂, he₃, he₄, he₅, he₆, he₇]; rfl⟩

theorem isPhrase_iteration (h : Known F Form.iteration.production.right) :
    Form.iteration.IsPhrase .statement F := by
  obtain ⟨below, rest, h₁, hrest, he₁⟩ := h.only .loop rfl
  obtain ⟨b₂, h₂, he₂⟩ := h₁.symbol "while" rfl
  obtain ⟨b₃, h₃, he₃⟩ := h₂.symbol "(" rfl
  obtain ⟨condition, b₄, h₄, he₄⟩ := h₃.phrase .expression
  obtain ⟨b₅, h₅, he₅⟩ := h₄.symbol ")" rfl
  obtain rfl := hrest.nil
  rcases h₅.forms [.loopBlock, .loopOne] rfl with
    ⟨below', rest', h₆, hrest', he₆⟩ | ⟨below', rest', h₆, hrest', he₆⟩ | ⟨⟨⟩⟩
  · obtain ⟨body, b₇, h₇, he₇⟩ := h₆.braced
    obtain rfl := h₇.nil
    obtain rfl := hrest'.nil
    exact ⟨.loop condition body, fun _ => by rw [he₁, he₂, he₃, he₄, he₅, he₆, he₇]; rfl⟩
  · obtain ⟨body, b₇, h₇, he₇⟩ := h₆.phrase .statement
    obtain rfl := h₇.nil
    obtain rfl := hrest'.nil
    exact ⟨.loopOne condition body, fun _ => by rw [he₁, he₂, he₃, he₄, he₅, he₆, he₇]; rfl⟩

theorem isPhrase_returning (h : Known F Form.returning.production.right) :
    Form.returning.IsPhrase .statement F := by
  obtain ⟨below, rest, h₁, hrest, he₁⟩ := h.only .giveBack rfl
  obtain ⟨b₂, h₂, he₂⟩ := h₁.symbol "return" rfl
  obtain rfl := hrest.nil
  rcases h₂.forms [.leave, .value] rfl with
    ⟨below', rest', h₃, hrest', he₃⟩ | ⟨below', rest', h₃, hrest', he₃⟩ | ⟨⟨⟩⟩
  · obtain ⟨b₄, h₄, he₄⟩ := h₃.symbol ";" rfl
    obtain rfl := h₄.nil
    obtain rfl := hrest'.nil
    exact ⟨.leave, fun _ => by rw [he₁, he₂, he₃, he₄]; rfl⟩
  · obtain ⟨e, b₄, h₄, he₄⟩ := h₃.phrase .expression
    obtain ⟨b₅, h₅, he₅⟩ := h₄.symbol ";" rfl
    obtain rfl := h₅.nil
    obtain rfl := hrest'.nil
    exact ⟨.giveBack e, fun _ => by rw [he₁, he₂, he₃, he₄, he₅]; rfl⟩

theorem isPhrase_moreCode (h : Known F Form.moreCode.production.right) :
    Form.moreCode.IsPhrase .statements F := by
  obtain ⟨s, b₁, h₁, he₁⟩ := h.phrase .statement
  obtain ⟨last, b₂, h₂, he₂⟩ := h₁.phrase .statements
  obtain rfl := h₂.nil
  exact ⟨.step s last, fun _ => by rw [he₁, he₂]; rfl⟩

/-- A node of a category is a phrase of it. -/
theorem isPhrase {f : Form} {c : Category} (hf : f ∈ Form.of c.root)
    (h : Known F f.production.right) : f.IsPhrase c F := by
  cases c with
  | expression =>
    obtain rfl := List.mem_singleton.mp hf
    exact isPhrase_expression h
  | sum =>
    obtain rfl := List.mem_singleton.mp hf
    exact isPhrase_sum h
  | sumTail =>
    obtain rfl | rfl := List.mem_pair.mp hf
    · exact isPhrase_add h
    · obtain rfl := h.nil
      exact ⟨.sumEnd, fun _ => rfl⟩
  | term =>
    obtain rfl := List.mem_singleton.mp hf
    exact isPhrase_term h
  | termTail =>
    obtain rfl | rfl := List.mem_pair.mp hf
    · exact isPhrase_multiply h
    · obtain rfl := h.nil
      exact ⟨.termEnd, fun _ => rfl⟩
  | factor =>
    have hf' : f ∈ [Form.group, .name, .number] := hf
    simp only [List.mem_cons, List.not_mem_nil, or_false] at hf'
    obtain rfl | rfl | rfl := hf'
    · exact isPhrase_group h
    · exact isPhrase_name h
    · exact isPhrase_number h
  | arguments =>
    obtain rfl | rfl := List.mem_pair.mp hf
    · exact isPhrase_someArguments h
    · obtain rfl := h.nil
      exact ⟨.noArguments, fun _ => rfl⟩
  | argumentTail =>
    obtain rfl | rfl := List.mem_pair.mp hf
    · exact isPhrase_moreArguments h
    · obtain rfl := h.nil
      exact ⟨.argumentEnd, fun _ => rfl⟩
  | statement =>
    have hf' : f ∈ [Form.normal, .selection, .iteration, .returning] := hf
    simp only [List.mem_cons, List.not_mem_nil, or_false] at hf'
    obtain rfl | rfl | rfl | rfl := hf'
    · exact isPhrase_normal h
    · exact isPhrase_selection h
    · exact isPhrase_iteration h
    · exact isPhrase_returning h
  | statements =>
    obtain rfl | rfl := List.mem_pair.mp hf
    · exact isPhrase_moreCode h
    · obtain rfl := h.nil
      exact ⟨.done, fun _ => rfl⟩

end Phrases

/-! ## Programs -/

/-- A node of a part is read when what is below it is known. -/
theorem reads_of_known {f : Form} {below : Forest Action} (hf : f ∈ Form.of f.production.left)
    (h : Known below f.production.right) : Reads f.production below := by
  intro q hq
  rw [hq] at hf
  cases q with
  | phrase c =>
    obtain ⟨e, he⟩ := isPhrase hf h
    exact ⟨e, fun rest => he (rest.map Token.bare)⟩
  | moreParameters =>
    obtain rfl | rfl := List.mem_pair.mp hf
    · obtain ⟨b₁, h₁, he₁⟩ := h.symbol "," rfl
      obtain ⟨p, b₂, h₂, he₂⟩ := h₁.parameter
      obtain ⟨ps, b₃, h₃, he₃⟩ := h₂.part .moreParameters
      obtain rfl := h₃.nil
      exact ⟨(p :: ps : List Parameter), fun _ => by rw [Forest.map, he₁, he₂, he₃]; rfl⟩
    · obtain rfl := h.nil
      exact ⟨([] : List Parameter), fun _ => rfl⟩
  | locals =>
    obtain rfl | rfl := List.mem_pair.mp hf
    · obtain ⟨v, b₁, h₁, he₁⟩ := h.localVariable
      obtain ⟨vs, b₂, h₂, he₂⟩ := h₁.part .locals
      obtain rfl := h₂.nil
      exact ⟨(v :: vs : List Variable), fun _ => by rw [Forest.map, he₁, he₂]; rfl⟩
    · obtain rfl := h.nil
      exact ⟨([] : List Variable), fun _ => rfl⟩
  | definitions =>
    obtain rfl | rfl := List.mem_pair.mp hf
    · obtain ⟨d, b₁, h₁, he₁⟩ := h.definition
      obtain ⟨ds, b₂, h₂, he₂⟩ := h₁.part .definitions
      obtain rfl := h₂.nil
      exact ⟨(d :: ds : Source), fun _ => by rw [Forest.map, he₁, he₂]; rfl⟩
    · obtain rfl := h.nil
      exact ⟨([] : Source), fun _ => rfl⟩

theorem known_of_grows {F : Forest Action} (hF : F.Grows resolved) : Known F F.roots := by
  refine ⟨hF, hF.everywhere fun p hp below hroots hbelow hreads => ?_, rfl⟩
  obtain ⟨f, hf, rfl⟩ := exists_form hp
  exact reads_of_known hf ⟨hbelow, hreads, hroots⟩

/-- Every derivation tree is the tree of a program. -/
theorem exists_source {F : Forest Action} (hF : F.Grows resolved)
    (hroots : F.roots = [.nonTerminal resolved.start]) :
    ∃ source : Source, F.map Token.bare = source.tree := by
  have h : Known F [.nonTerminal Place.program] := hroots ▸ known_of_grows hF
  obtain ⟨below, rest, h₁, hrest, he₁⟩ := h.only .program rfl
  obtain ⟨source, b₂, h₂, he₂⟩ := h₁.part .definitions
  obtain rfl := h₂.nil
  obtain rfl := hrest.nil
  exact ⟨source, by rw [he₁, he₂]; rfl⟩

theorem spells_of_map_eq {F : Forest Action} {source : Source}
    (h : F.map Token.bare = source.tree) : source.Spells F.tokens := by
  rw [Source.Spells, ← Forest.tokens_map, h, source.tokens_tree]

/-- The sentences are what programs spell. -/
theorem sentence_iff_exists_source {tokens : List Token} :
    resolved.Sentence tokens ↔ ∃ source : Source, source.Spells tokens := by
  rw [Forest.sentence_iff_exists_forest]
  constructor
  · rintro ⟨F, hF, hroots, rfl⟩
    obtain ⟨source, h⟩ := exists_source hF hroots
    exact ⟨source, spells_of_map_eq h⟩
  · rintro ⟨source, h⟩
    obtain ⟨F, hmap, ht, hF⟩ := h.exists_forest
    refine ⟨F, hF, ?_, ht⟩
    rw [← Forest.roots_map (f := Token.bare), hmap, source.roots_tree]
    rfl

end PredictiveParsing.Cminus
