import PredictiveParsing.Proofs.Cminus.Form

/-!
# The derivation trees of programs

`tree` gives the derivation tree of a piece of syntax, in front of what comes next to it. Its tokens
are the spelling (`tokens_tree`) and it grows in the grammar (`grows_tree`).

* `Source.Spells.exists_forest`: what a program spells is the tokens of a tree of the program, but
  for lines and texts that do not matter.
-/

namespace PredictiveParsing.Cminus

open Forest (leaf nil)

/-- A node for a production. -/
def Form.tree (f : Form) (below rest : Forest Action) : Forest Action :=
  .node f.production below rest

/-! ## Expressions and statements -/

/-- The non-terminal of a category. -/
def Category.root : Category → Nat
  | expression => Place.expression
  | sum => Place.additiveExpr
  | sumTail => Place.additiveExprFollow
  | term => Place.term
  | termTail => Place.termFollow
  | factor => Place.factor
  | arguments => Place.callParams
  | argumentTail => Place.callParamFollow
  | statement => Place.code
  | statements => Place.codeList

/-- A call behind its name. -/
def callTree (args : Forest Action → Forest Action) (rest : Forest Action) : Forest Action :=
  Form.call.tree
    (leaf Place.parenOpen (symbol "(") (args (leaf Place.parenClose (symbol ")") nil))) rest

/-- A statement that begins with a name. -/
def namedTree (name : String) (below rest : Forest Action) : Forest Action :=
  Form.normal.tree (Form.named.tree (leaf Place.id (identifier name) below) nil) rest

/-- A block of statements in front of the rest of its node. -/
def bracedTree (body : Forest Action → Forest Action) (rest : Forest Action) : Forest Action :=
  leaf Place.braceOpen (symbol "\x7b") (body (leaf Place.braceClose (symbol "\x7d") rest))

def chooseTree (condition body : Forest Action → Forest Action) (last rest : Forest Action) :
    Forest Action :=
  Form.selection.tree
    (Form.choose.tree
      (leaf Place.ifWord (symbol "if") (leaf Place.parenOpen (symbol "(") (condition
        (leaf Place.parenClose (symbol ")") (bracedTree body last))))) nil) rest

def loopTree (condition : Forest Action → Forest Action) (last rest : Forest Action) :
    Forest Action :=
  Form.iteration.tree
    (Form.loop.tree
      (leaf Place.whileWord (symbol "while") (leaf Place.parenOpen (symbol "(") (condition
        (leaf Place.parenClose (symbol ")") last)))) nil) rest

def returnTree (last rest : Forest Action) : Forest Action :=
  Form.returning.tree (Form.giveBack.tree (leaf Place.returnWord (symbol "return") last) nil) rest

def Phrase.tree {c : Category} : Phrase c → Forest Action → Forest Action
  | plain s => Form.expression.tree (s.tree (Form.noComparison.tree nil nil))
  | compare l op r =>
    Form.expression.tree (l.tree
      (Form.compare.tree
        ((Form.relOp op).tree (leaf op.place (symbol op.kind) nil) (r.tree nil)) nil))
  | sum t last => Form.sum.tree (t.tree (last.tree nil))
  | sumEnd => Form.sumEnd.tree nil
  | add op t last =>
    Form.add.tree
      ((Form.addOp op).tree (leaf op.place (symbol op.kind) nil) (t.tree (last.tree nil)))
  | term f last => Form.term.tree (f.tree (last.tree nil))
  | termEnd => Form.termEnd.tree nil
  | multiply op f last =>
    Form.multiply.tree
      ((Form.mulOp op).tree (leaf op.place (symbol op.kind) nil) (f.tree (last.tree nil)))
  | group e =>
    Form.group.tree
      (leaf Place.parenOpen (symbol "(") (e.tree (leaf Place.parenClose (symbol ")") nil)))
  | var name => Form.name.tree (leaf Place.id (identifier name) (Form.var.tree nil nil))
  | element name index =>
    Form.name.tree (leaf Place.id (identifier name)
      (Form.element.tree
        (leaf Place.bracketOpen (symbol "[")
          (index.tree (leaf Place.bracketClose (symbol "]") nil)))
        nil))
  | call name args =>
    Form.name.tree
      (leaf Place.id (identifier name) (Form.callFactor.tree (callTree args.tree nil) nil))
  | number text => Form.number.tree (leaf Place.num (lexeme "num" text) nil)
  | noArguments => Form.noArguments.tree nil
  | arguments e last =>
    Form.someArguments.tree (Form.argumentList.tree (e.tree (last.tree nil)) nil)
  | argumentEnd => Form.lastArgument.tree nil
  | argument e last =>
    Form.moreArguments.tree (leaf Place.comma (symbol ",") (e.tree (last.tree nil)))
  | skip => Form.normal.tree (Form.skip.tree (leaf Place.semicolon (symbol ";") nil) nil)
  | assign name value =>
    namedTree name (Form.assign.tree
      (Form.noIndex.tree nil
        (leaf Place.assign (symbol "=") (value.tree (leaf Place.semicolon (symbol ";") nil)))) nil)
  | assignElement name index value =>
    namedTree name (Form.assign.tree
      (Form.index.tree
        (leaf Place.bracketOpen (symbol "[")
          (index.tree (leaf Place.bracketClose (symbol "]") nil)))
        (leaf Place.assign (symbol "=") (value.tree (leaf Place.semicolon (symbol ";") nil)))) nil)
  | invoke name args =>
    namedTree name
      (Form.invoke.tree (callTree args.tree (leaf Place.semicolon (symbol ";") nil)) nil)
  | choose condition body => chooseTree condition.tree body.tree (Form.noElse.tree nil nil)
  | chooseElse condition body other =>
    chooseTree condition.tree body.tree
      (Form.otherwise.tree (leaf Place.elseWord (symbol "else") (bracedTree other.tree nil)) nil)
  | loop condition body =>
    loopTree condition.tree (Form.loopBlock.tree (bracedTree body.tree nil) nil)
  | loopOne condition body => loopTree condition.tree (Form.loopOne.tree (body.tree nil) nil)
  | leave => returnTree (Form.leave.tree (leaf Place.semicolon (symbol ";") nil) nil)
  | giveBack e => returnTree (Form.value.tree (e.tree (leaf Place.semicolon (symbol ";") nil)) nil)
  | done => Form.noCode.tree nil
  | step s last => Form.moreCode.tree (s.tree (last.tree nil))

/-! ## Definitions -/

def TypeName.tree (t : TypeName) (rest : Forest Action) : Forest Action :=
  (Form.type t.kind).tree (leaf (typePlace t.kind) t.spelling nil) rest

/-- What stands behind the name of a variable. -/
def lengthTree : Option String → Forest Action
  | none => Form.scalar.tree (leaf Place.semicolon (symbol ";") nil) nil
  | some text =>
    Form.array.tree
      (leaf Place.bracketOpen (symbol "[") (leaf Place.num (lexeme "num" text)
        (leaf Place.bracketClose (symbol "]") (leaf Place.semicolon (symbol ";") nil)))) nil

/-- A declaration is a type, a name, and more. -/
def declaratorTree (t : TypeName) (name : String) (last : Forest Action) : Forest Action :=
  t.tree (leaf Place.id (identifier name) last)

def Variable.localTree (v : Variable) : Forest Action → Forest Action :=
  Form.localVariable.tree (declaratorTree v.type v.name (lengthTree v.length))

def subscriptTree : Bool → Forest Action
  | true =>
    Form.subscript.tree
      (leaf Place.bracketOpen (symbol "[") (leaf Place.bracketClose (symbol "]") nil)) nil
  | false => Form.noSubscript.tree nil nil

def Parameter.tree (p : Parameter) : Forest Action → Forest Action :=
  Form.parameter.tree (declaratorTree p.type p.name (subscriptTree p.isArray))

/-- The parameters behind the first. -/
def moreParametersTree : List Parameter → Forest Action → Forest Action
  | [] => Form.lastParameter.tree nil
  | p :: ps =>
    Form.moreParameters.tree (leaf Place.comma (symbol ",") (p.tree (moreParametersTree ps nil)))

def parametersTree : List Parameter → Forest Action → Forest Action
  | [] => Form.noParameters.tree nil
  | p :: ps =>
    Form.someParameters.tree (Form.parameterList.tree (p.tree (moreParametersTree ps nil)) nil)

def localsTree : List Variable → Forest Action → Forest Action
  | [] => Form.noLocals.tree nil
  | v :: vs => Form.moreLocals.tree (v.localTree (localsTree vs nil))

def blockTree (locals : List Variable) (body : Phrase .statements) : Forest Action :=
  Form.block.tree
    (leaf Place.braceOpen (symbol "\x7b")
      (localsTree locals (body.tree (leaf Place.braceClose (symbol "\x7d") nil)))) nil

def Definition.tree : Definition → Forest Action → Forest Action
  | var v =>
    Form.define.tree
      (declaratorTree v.type v.name (Form.variableDefine.tree (lengthTree v.length) nil))
  | function f =>
    Form.define.tree
      (declaratorTree f.type f.name (Form.functionDefine.tree
        (Form.function.tree
          (leaf Place.parenOpen (symbol "(") (parametersTree f.parameters
            (leaf Place.parenClose (symbol ")") (blockTree f.locals f.body)))) nil) nil))

def definitionsTree : Source → Forest Action → Forest Action
  | [] => Form.noDefinitions.tree nil
  | d :: ds => Form.moreDefinitions.tree (d.tree (definitionsTree ds nil))

def Source.tree (source : Source) : Forest Action :=
  Form.program.tree (definitionsTree source nil) nil

/-! ## Tokens -/

theorem Form.tokens_tree (f : Form) (below rest : Forest Action) :
    (f.tree below rest).tokens = below.tokens ++ rest.tokens := rfl

theorem tokens_leaf (i : Nat) (token : Token) (rest : Forest Action) :
    (leaf i token rest).tokens = token :: rest.tokens := rfl

theorem tokens_nil : (nil : Forest Action).tokens = [] := rfl

theorem Phrase.tokens_tree {c : Category} (e : Phrase c) (rest : Forest Action) :
    (e.tree rest).tokens = e.spelling ++ rest.tokens := by
  induction e generalizing rest with
  | _ =>
    simp [*, tree, callTree, namedTree, bracedTree, chooseTree, loopTree, returnTree,
      Form.tokens_tree, tokens_leaf, tokens_nil, spelling]

theorem tokens_declaratorTree (t : TypeName) (name : String) (last : Forest Action) :
    (declaratorTree t name last).tokens = [t.spelling, identifier name] ++ last.tokens := rfl

theorem Variable.tokens_localTree (v : Variable) (rest : Forest Action) :
    (v.localTree rest).tokens = v.spelling ++ rest.tokens := by
  rcases v with ⟨t, name, _ | length⟩
  · rfl
  · rfl

theorem Parameter.tokens_tree (p : Parameter) (rest : Forest Action) :
    (p.tree rest).tokens = p.spelling ++ rest.tokens := by
  rcases p with ⟨t, name, _ | _⟩
  · rfl
  · rfl

theorem tokens_moreParametersTree (ps : List Parameter) (rest : Forest Action) :
    (moreParametersTree ps rest).tokens = parametersTail ps ++ rest.tokens := by
  induction ps generalizing rest with
  | nil => rfl
  | cons p ps ih =>
    rw [moreParametersTree, Form.tokens_tree, tokens_leaf, p.tokens_tree, ih]
    simp [parametersTail, tokens_nil]

theorem tokens_parametersTree (ps : List Parameter) (rest : Forest Action) :
    (parametersTree ps rest).tokens = parametersSpelling ps ++ rest.tokens := by
  cases ps with
  | nil => rfl
  | cons p ps =>
    rw [parametersTree, Form.tokens_tree, Form.tokens_tree, p.tokens_tree,
      tokens_moreParametersTree]
    simp [parametersSpelling, tokens_nil]

theorem tokens_localsTree (vs : List Variable) (rest : Forest Action) :
    (localsTree vs rest).tokens = vs.flatMap Variable.spelling ++ rest.tokens := by
  induction vs generalizing rest with
  | nil => rfl
  | cons v vs ih =>
    rw [localsTree, Form.tokens_tree, v.tokens_localTree, ih]
    simp [tokens_nil]

theorem Definition.tokens_tree (d : Definition) (rest : Forest Action) :
    (d.tree rest).tokens = d.spelling ++ rest.tokens := by
  cases d with
  | var v =>
    rcases v with ⟨t, name, _ | length⟩
    · rfl
    · rfl
  | function f =>
    simp [tree, spelling, Function.spelling, blockTree, Form.tokens_tree, tokens_declaratorTree,
      tokens_leaf, tokens_nil, tokens_parametersTree, tokens_localsTree, Phrase.tokens_tree]

theorem tokens_definitionsTree (source : Source) (rest : Forest Action) :
    (definitionsTree source rest).tokens = source.spelling ++ rest.tokens := by
  induction source generalizing rest with
  | nil => rfl
  | cons d ds ih =>
    rw [definitionsTree, Form.tokens_tree, d.tokens_tree, ih]
    simp [Source.spelling, tokens_nil]

theorem Source.tokens_tree (source : Source) : source.tree.tokens = source.spelling := by
  rw [tree, Form.tokens_tree, tokens_definitionsTree, tokens_nil, List.append_nil, List.append_nil]

/-! ## Growing -/

@[simp] theorem grows_nil : (nil : Forest Action).Grows resolved := trivial

@[simp] theorem grows_leaf {i : Nat} {token : Token} {rest : Forest Action} :
    (leaf i token rest).Grows resolved ↔
      resolved.terminal token.kind = some (.terminal i) ∧ rest.Grows resolved := Iff.rfl

@[simp] theorem Form.grows_tree {f : Form} {below rest : Forest Action} :
    (f.tree below rest).Grows resolved ↔
      (below.roots = f.production.right ∧ below.Grows resolved) ∧ rest.Grows resolved :=
  ⟨fun h => ⟨h.1.2, h.2⟩, fun h => ⟨⟨f.mem_productions, h.1⟩, h.2⟩⟩

@[simp] theorem roots_nil : (nil : Forest Action).roots = [] := rfl

@[simp] theorem roots_leaf (i : Nat) (token : Token) (rest : Forest Action) :
    (leaf i token rest).roots = .terminal i :: rest.roots := rfl

@[simp] theorem Form.roots_tree (f : Form) (below rest : Forest Action) :
    (f.tree below rest).roots = .nonTerminal f.production.left :: rest.roots := rfl

@[simp] theorem Phrase.roots_tree {c : Category} (e : Phrase c) (rest : Forest Action) :
    (e.tree rest).roots = .nonTerminal c.root :: rest.roots := by
  cases e <;> rfl

@[simp] theorem Phrase.grows_tree {c : Category} {e : Phrase c} {rest : Forest Action} :
    (e.tree rest).Grows resolved ↔ rest.Grows resolved := by
  induction e generalizing rest with
  | _ =>
    simp [*, tree, callTree, namedTree, bracedTree, chooseTree, loopTree, returnTree,
      Category.root, Form.production, symbol, lexeme, identifier]

@[simp] theorem TypeName.roots_tree (t : TypeName) (rest : Forest Action) :
    (t.tree rest).roots = .nonTerminal Place.type :: rest.roots := rfl

@[simp] theorem TypeName.grows_tree {t : TypeName} {rest : Forest Action} :
    (t.tree rest).Grows resolved ↔ rest.Grows resolved := by
  simp [tree, spelling, lexeme, Form.production]

@[simp] theorem roots_lengthTree (length : Option String) :
    (lengthTree length).roots = [.nonTerminal Place.varDefineFollow] := by
  cases length <;> rfl

@[simp] theorem grows_lengthTree (length : Option String) :
    (lengthTree length).Grows resolved := by
  cases length <;> simp [lengthTree, symbol, lexeme, Form.production]

@[simp] theorem roots_declaratorTree (t : TypeName) (name : String) (last : Forest Action) :
    (declaratorTree t name last).roots =
      [.nonTerminal Place.type, .terminal Place.id] ++ last.roots := rfl

@[simp] theorem grows_declaratorTree {t : TypeName} {name : String} {last : Forest Action} :
    (declaratorTree t name last).Grows resolved ↔ last.Grows resolved := by
  simp [declaratorTree, identifier, lexeme]

@[simp] theorem Variable.roots_localTree (v : Variable) (rest : Forest Action) :
    (v.localTree rest).roots = .nonTerminal Place.localVarDefine :: rest.roots := rfl

@[simp] theorem Variable.grows_localTree {v : Variable} {rest : Forest Action} :
    (v.localTree rest).Grows resolved ↔ rest.Grows resolved := by
  simp [localTree, Form.production]

@[simp] theorem Parameter.roots_tree (p : Parameter) (rest : Forest Action) :
    (p.tree rest).roots = .nonTerminal Place.param :: rest.roots := rfl

@[simp] theorem Parameter.grows_tree {p : Parameter} {rest : Forest Action} :
    (p.tree rest).Grows resolved ↔ rest.Grows resolved := by
  rcases p with ⟨t, name, _ | _⟩
  · simp [tree, subscriptTree, Form.production]
  · simp [tree, subscriptTree, symbol, Form.production]

@[simp] theorem roots_moreParametersTree (ps : List Parameter) (rest : Forest Action) :
    (moreParametersTree ps rest).roots = .nonTerminal Place.paramFollow :: rest.roots := by
  cases ps <;> rfl

@[simp] theorem grows_moreParametersTree {ps : List Parameter} {rest : Forest Action} :
    (moreParametersTree ps rest).Grows resolved ↔ rest.Grows resolved := by
  induction ps generalizing rest with
  | nil => simp [moreParametersTree, Form.production]
  | cons p ps ih => simp [moreParametersTree, ih, symbol, Form.production]

@[simp] theorem roots_parametersTree (ps : List Parameter) (rest : Forest Action) :
    (parametersTree ps rest).roots = .nonTerminal Place.params :: rest.roots := by
  cases ps <;> rfl

@[simp] theorem grows_parametersTree {ps : List Parameter} {rest : Forest Action} :
    (parametersTree ps rest).Grows resolved ↔ rest.Grows resolved := by
  cases ps <;> simp [parametersTree, Form.production]

@[simp] theorem roots_localsTree (vs : List Variable) (rest : Forest Action) :
    (localsTree vs rest).roots = .nonTerminal Place.localDefineList :: rest.roots := by
  cases vs <;> rfl

@[simp] theorem grows_localsTree {vs : List Variable} {rest : Forest Action} :
    (localsTree vs rest).Grows resolved ↔ rest.Grows resolved := by
  induction vs generalizing rest with
  | nil => simp [localsTree, Form.production]
  | cons v vs ih => simp [localsTree, ih, Form.production]

@[simp] theorem Definition.roots_tree (d : Definition) (rest : Forest Action) :
    (d.tree rest).roots = .nonTerminal Place.define :: rest.roots := by
  cases d <;> rfl

@[simp] theorem Definition.grows_tree {d : Definition} {rest : Forest Action} :
    (d.tree rest).Grows resolved ↔ rest.Grows resolved := by
  cases d with
  | var v => simp [tree, Form.production]
  | function f => simp [tree, blockTree, symbol, Form.production, Category.root]

@[simp] theorem roots_definitionsTree (source : Source) (rest : Forest Action) :
    (definitionsTree source rest).roots = .nonTerminal Place.defineList :: rest.roots := by
  cases source <;> rfl

@[simp] theorem grows_definitionsTree {source : Source} {rest : Forest Action} :
    (definitionsTree source rest).Grows resolved ↔ rest.Grows resolved := by
  induction source generalizing rest with
  | nil => simp [definitionsTree, Form.production]
  | cons d ds ih => simp [definitionsTree, ih, Form.production]

theorem Source.roots_tree (source : Source) :
    source.tree.roots = [.nonTerminal Place.program] := rfl

theorem Source.grows_tree (source : Source) : source.tree.Grows resolved := by
  simp [tree, Form.production]

/-- The tokens of a program are at the leaves of a tree of it. -/
theorem Source.Spells.exists_forest {source : Source} {tokens : List Token}
    (h : source.Spells tokens) :
    ∃ F : Forest Action, F.map Token.bare = source.tree ∧ F.tokens = tokens ∧ F.Grows resolved := by
  obtain ⟨F, hF, ht⟩ := Forest.exists_map_eq (h.trans source.tokens_tree.symm)
  refine ⟨F, hF, ht, ?_⟩
  rw [← Forest.grows_map_iff (f := Token.bare) fun _ => rfl, hF]
  exact source.grows_tree

end PredictiveParsing.Cminus
