import PredictiveParsing.Cminus.Language
import PredictiveParsing.Proofs.Cminus.Syntax
import PredictiveParsing.Proofs.Parse.Forest

/-!
# The productions of C-minus

One name for each production, with operators and type keywords as parameters. Signs are numbered by
their places in `terminals` and `nonTerminals`, and `Place` names the places; `grammar_eq` says that
the declared grammar has just these productions.
-/

namespace PredictiveParsing.Cminus

open Sign (terminal nonTerminal)

/-! ## Places -/

namespace Place

-- Terminals.
abbrev id : Nat := 2
abbrev num : Nat := 3
abbrev parenOpen : Nat := 4
abbrev parenClose : Nat := 5
abbrev bracketOpen : Nat := 6
abbrev bracketClose : Nat := 7
abbrev braceOpen : Nat := 8
abbrev braceClose : Nat := 9
abbrev comma : Nat := 10
abbrev semicolon : Nat := 11
abbrev assign : Nat := 12
abbrev ifWord : Nat := 13
abbrev elseWord : Nat := 14
abbrev whileWord : Nat := 15
abbrev returnWord : Nat := 16

-- Non-terminals.
@[match_pattern] abbrev program : Nat := 0
@[match_pattern] abbrev defineList : Nat := 1
@[match_pattern] abbrev define : Nat := 2
@[match_pattern] abbrev defineType : Nat := 3
@[match_pattern] abbrev varDefineFollow : Nat := 4
@[match_pattern] abbrev type : Nat := 5
@[match_pattern] abbrev funDefineFollow : Nat := 6
@[match_pattern] abbrev params : Nat := 7
@[match_pattern] abbrev paramList : Nat := 8
@[match_pattern] abbrev paramFollow : Nat := 9
@[match_pattern] abbrev param : Nat := 10
@[match_pattern] abbrev arraySubscript : Nat := 11
@[match_pattern] abbrev codeBlock : Nat := 12
@[match_pattern] abbrev localDefineList : Nat := 13
@[match_pattern] abbrev localVarDefine : Nat := 14
@[match_pattern] abbrev codeList : Nat := 15
@[match_pattern] abbrev code : Nat := 16
@[match_pattern] abbrev normalStatement : Nat := 17
@[match_pattern] abbrev normalStatementFollow : Nat := 18
@[match_pattern] abbrev callFollow : Nat := 19
@[match_pattern] abbrev callParams : Nat := 20
@[match_pattern] abbrev callParamList : Nat := 21
@[match_pattern] abbrev callParamFollow : Nat := 22
@[match_pattern] abbrev selectionStatement : Nat := 23
@[match_pattern] abbrev selectionFollow : Nat := 24
@[match_pattern] abbrev iterationStatement : Nat := 25
@[match_pattern] abbrev iterationFollow : Nat := 26
@[match_pattern] abbrev returnStatement : Nat := 27
@[match_pattern] abbrev returnFollow : Nat := 28
@[match_pattern] abbrev varFollow : Nat := 29
@[match_pattern] abbrev expression : Nat := 30
@[match_pattern] abbrev expressionFollow : Nat := 31
@[match_pattern] abbrev relOp : Nat := 32
@[match_pattern] abbrev additiveExpr : Nat := 33
@[match_pattern] abbrev additiveExprFollow : Nat := 34
@[match_pattern] abbrev addOp : Nat := 35
@[match_pattern] abbrev term : Nat := 36
@[match_pattern] abbrev termFollow : Nat := 37
@[match_pattern] abbrev mulOp : Nat := 38
@[match_pattern] abbrev factor : Nat := 39
@[match_pattern] abbrev idFactorFollow : Nat := 40

end Place

def RelOp.place : RelOp → Nat
  | le => 22
  | lt => 21
  | gt => 23
  | ge => 24
  | eq => 25
  | ne => 26

def AddOp.place : AddOp → Nat
  | plus => 17
  | minus => 18

def MulOp.place : MulOp → Nat
  | times => 19
  | div => 20

/-- The place of the keyword. -/
def typePlace : ValueType → Nat
  | .int => 0
  | .void => 1

/-! ## Forms -/

inductive Form where
  -- definitions
  | program | moreDefinitions | noDefinitions | define | variableDefine | functionDefine
  | scalar | array | type (ty : ValueType)
  -- functions
  | function | someParameters | noParameters | parameterList | moreParameters | lastParameter
  | parameter | subscript | noSubscript | block | moreLocals | noLocals | localVariable
  -- statements
  | moreCode | noCode | normal | selection | iteration | returning | skip | named | assign | invoke
  | call | someArguments | noArguments | argumentList | moreArguments | lastArgument
  | choose | otherwise | noElse | loop | loopBlock | loopOne | giveBack | leave | value
  | index | noIndex
  -- expressions
  | expression | compare | noComparison | relOp (op : RelOp)
  | sum | add | sumEnd | addOp (op : AddOp) | term | multiply | termEnd | mulOp (op : MulOp)
  | group | name | number | element | callFactor | var
  deriving DecidableEq, Repr

namespace Form

def production : Form → Production Action
  | program => { left := Place.program, right := [nonTerminal Place.defineList] }
  | moreDefinitions =>
    { left := Place.defineList, right := [nonTerminal Place.define, nonTerminal Place.defineList] }
  | noDefinitions => { left := Place.defineList, right := [] }
  | define =>
    { left := Place.define,
      right := [nonTerminal Place.type, terminal Place.id, nonTerminal Place.defineType],
      slots := [none, none, some .captureDeclarator] }
  | variableDefine =>
    { left := Place.defineType, right := [nonTerminal Place.varDefineFollow],
      slots := [some .inherit] }
  | functionDefine =>
    { left := Place.defineType, right := [nonTerminal Place.funDefineFollow],
      slots := [some .inherit] }
  | scalar =>
    { left := Place.varDefineFollow, right := [terminal Place.semicolon],
      closing := some .declareVariable }
  | array =>
    { left := Place.varDefineFollow,
      right := [terminal Place.bracketOpen, terminal Place.num, terminal Place.bracketClose,
        terminal Place.semicolon],
      closing := some .declareArray }
  | type ty =>
    { left := Place.type, right := [terminal (typePlace ty)], closing := some .typeFromKeyword }
  | function =>
    { left := Place.funDefineFollow,
      right := [terminal Place.parenOpen, nonTerminal Place.params, terminal Place.parenClose,
        nonTerminal Place.codeBlock],
      opening := some .openFunction }
  | someParameters => { left := Place.params, right := [nonTerminal Place.paramList] }
  | noParameters => { left := Place.params, right := [] }
  | parameterList =>
    { left := Place.paramList, right := [nonTerminal Place.param, nonTerminal Place.paramFollow] }
  | moreParameters =>
    { left := Place.paramFollow,
      right := [terminal Place.comma, nonTerminal Place.param, nonTerminal Place.paramFollow] }
  | lastParameter => { left := Place.paramFollow, right := [] }
  | parameter =>
    { left := Place.param,
      right := [nonTerminal Place.type, terminal Place.id, nonTerminal Place.arraySubscript],
      closing := some .declareParam }
  | subscript =>
    { left := Place.arraySubscript,
      right := [terminal Place.bracketOpen, terminal Place.bracketClose],
      closing := some .markArray }
  | noSubscript => { left := Place.arraySubscript, right := [], closing := some .markScalar }
  | block =>
    { left := Place.codeBlock,
      right := [terminal Place.braceOpen, nonTerminal Place.localDefineList,
        nonTerminal Place.codeList, terminal Place.braceClose] }
  | moreLocals =>
    { left := Place.localDefineList,
      right := [nonTerminal Place.localVarDefine, nonTerminal Place.localDefineList] }
  | noLocals => { left := Place.localDefineList, right := [] }
  | localVariable =>
    { left := Place.localVarDefine,
      right := [nonTerminal Place.type, terminal Place.id, nonTerminal Place.varDefineFollow],
      slots := [none, none, some .captureDeclarator] }
  | moreCode =>
    { left := Place.codeList, right := [nonTerminal Place.code, nonTerminal Place.codeList] }
  | noCode => { left := Place.codeList, right := [] }
  | normal => { left := Place.code, right := [nonTerminal Place.normalStatement] }
  | selection => { left := Place.code, right := [nonTerminal Place.selectionStatement] }
  | iteration => { left := Place.code, right := [nonTerminal Place.iterationStatement] }
  | returning => { left := Place.code, right := [nonTerminal Place.returnStatement] }
  | skip => { left := Place.normalStatement, right := [terminal Place.semicolon] }
  | named =>
    { left := Place.normalStatement,
      right := [terminal Place.id, nonTerminal Place.normalStatementFollow],
      slots := [none, some .passId] }
  | assign =>
    { left := Place.normalStatementFollow,
      right := [nonTerminal Place.varFollow, terminal Place.assign, nonTerminal Place.expression,
        terminal Place.semicolon],
      opening := some .resolveVariable }
  | invoke =>
    { left := Place.normalStatementFollow,
      right := [nonTerminal Place.callFollow, terminal Place.semicolon],
      slots := [some .inherit, none] }
  | call =>
    { left := Place.callFollow,
      right := [terminal Place.parenOpen, nonTerminal Place.callParams, terminal Place.parenClose],
      opening := some .resolveCall, closing := some .checkCall }
  | someArguments =>
    { left := Place.callParams, right := [nonTerminal Place.callParamList],
      closing := some (.argsFrom 0) }
  | noArguments => { left := Place.callParams, right := [], closing := some .argsNone }
  | argumentList =>
    { left := Place.callParamList,
      right := [nonTerminal Place.expression, nonTerminal Place.callParamFollow],
      closing := some (.argsPrepend 1) }
  | moreArguments =>
    { left := Place.callParamFollow,
      right := [terminal Place.comma, nonTerminal Place.expression,
        nonTerminal Place.callParamFollow],
      closing := some (.argsPrepend 2) }
  | lastArgument => { left := Place.callParamFollow, right := [], closing := some .argsNone }
  | choose =>
    { left := Place.selectionStatement,
      right := [terminal Place.ifWord, terminal Place.parenOpen, nonTerminal Place.expression,
        terminal Place.parenClose, terminal Place.braceOpen, nonTerminal Place.codeList,
        terminal Place.braceClose, nonTerminal Place.selectionFollow] }
  | otherwise =>
    { left := Place.selectionFollow,
      right := [terminal Place.elseWord, terminal Place.braceOpen, nonTerminal Place.codeList,
        terminal Place.braceClose] }
  | noElse => { left := Place.selectionFollow, right := [] }
  | loop =>
    { left := Place.iterationStatement,
      right := [terminal Place.whileWord, terminal Place.parenOpen, nonTerminal Place.expression,
        terminal Place.parenClose, nonTerminal Place.iterationFollow] }
  | loopBlock =>
    { left := Place.iterationFollow,
      right := [terminal Place.braceOpen, nonTerminal Place.codeList, terminal Place.braceClose] }
  | loopOne => { left := Place.iterationFollow, right := [nonTerminal Place.code] }
  | giveBack =>
    { left := Place.returnStatement,
      right := [terminal Place.returnWord, nonTerminal Place.returnFollow] }
  | leave =>
    { left := Place.returnFollow, right := [terminal Place.semicolon],
      opening := some .returnNothing }
  | value =>
    { left := Place.returnFollow, right := [nonTerminal Place.expression, terminal Place.semicolon],
      opening := some .returnValue }
  | index =>
    { left := Place.varFollow,
      right := [terminal Place.bracketOpen, nonTerminal Place.expression,
        terminal Place.bracketClose] }
  | noIndex => { left := Place.varFollow, right := [] }
  | expression =>
    { left := Place.expression,
      right := [nonTerminal Place.additiveExpr, nonTerminal Place.expressionFollow] }
  | compare =>
    { left := Place.expressionFollow,
      right := [nonTerminal Place.relOp, nonTerminal Place.additiveExpr] }
  | noComparison => { left := Place.expressionFollow, right := [] }
  | relOp op => { left := Place.relOp, right := [terminal op.place], closing := some .operator }
  | sum =>
    { left := Place.additiveExpr,
      right := [nonTerminal Place.term, nonTerminal Place.additiveExprFollow] }
  | add =>
    { left := Place.additiveExprFollow,
      right := [nonTerminal Place.addOp, nonTerminal Place.term,
        nonTerminal Place.additiveExprFollow] }
  | sumEnd => { left := Place.additiveExprFollow, right := [] }
  | addOp op => { left := Place.addOp, right := [terminal op.place], closing := some .operator }
  | term =>
    { left := Place.term, right := [nonTerminal Place.factor, nonTerminal Place.termFollow] }
  | multiply =>
    { left := Place.termFollow,
      right := [nonTerminal Place.mulOp, nonTerminal Place.factor, nonTerminal Place.termFollow] }
  | termEnd => { left := Place.termFollow, right := [] }
  | mulOp op => { left := Place.mulOp, right := [terminal op.place], closing := some .operator }
  | group =>
    { left := Place.factor,
      right := [terminal Place.parenOpen, nonTerminal Place.expression, terminal Place.parenClose] }
  | name =>
    { left := Place.factor, right := [terminal Place.id, nonTerminal Place.idFactorFollow],
      slots := [none, some .passId] }
  | number => { left := Place.factor, right := [terminal Place.num], closing := some .literalValue }
  | element =>
    { left := Place.idFactorFollow,
      right := [terminal Place.bracketOpen, nonTerminal Place.expression,
        terminal Place.bracketClose],
      opening := some .resolveVariable }
  | callFactor =>
    { left := Place.idFactorFollow, right := [nonTerminal Place.callFollow],
      slots := [some .inherit], closing := some .requireValue }
  | var => { left := Place.idFactorFollow, right := [], opening := some .resolveVariable }

/-- All forms, in the order in which the grammar lists them. -/
def all : List Form :=
  [program, moreDefinitions, noDefinitions, define, variableDefine, functionDefine, scalar, array,
   type .int, type .void,
   function, someParameters, noParameters, parameterList, moreParameters, lastParameter, parameter,
   subscript, noSubscript, block, moreLocals, noLocals, localVariable,
   moreCode, noCode, normal, selection, iteration, returning, skip, named, assign, invoke, call,
   someArguments, noArguments, argumentList, moreArguments, lastArgument, choose, otherwise, noElse,
   loop, loopBlock, loopOne, giveBack, leave, value, index, noIndex,
   expression, compare, noComparison, relOp .le, relOp .lt, relOp .gt, relOp .ge, relOp .eq,
   relOp .ne, sum, add, sumEnd, addOp .plus, addOp .minus, term, multiply, termEnd, mulOp .times,
   mulOp .div, group, name, number, element, callFactor, var]

theorem mem_all (f : Form) : f ∈ all := by
  cases f with
  | type ty => cases ty <;> decide
  | relOp op => cases op <;> decide
  | addOp op => cases op <;> decide
  | mulOp op => cases op <;> decide
  | _ => decide

/-- The forms of a non-terminal. -/
def of (left : Nat) : List Form := all.filter fun f => f.production.left = left

end Form

/-! ## The grammar -/

def resolved : Grammar Action where
  terminals := terminals
  nonTerminals := nonTerminals
  productions := Form.all.map Form.production
  start := Place.program

theorem grammar_eq : grammar = .ok resolved := by
  decide +kernel

theorem Form.mem_productions (f : Form) : f.production ∈ resolved.productions :=
  List.mem_map_of_mem f.mem_all

theorem exists_form {p : Production Action} (hp : p ∈ resolved.productions) :
    ∃ f ∈ Form.of p.left, f.production = p := by
  obtain ⟨f, hf, rfl⟩ := List.mem_map.mp hp
  exact ⟨f, List.mem_filter.mpr ⟨hf, by simp⟩, rfl⟩

theorem distinctShapes_resolved : resolved.DistinctShapes := by
  unfold Grammar.DistinctShapes
  decide +kernel

theorem slots_resolved : ∀ p ∈ resolved.productions, p.slots.length = p.right.length := by
  intro p hp
  obtain ⟨f, -, rfl⟩ := exists_form hp
  cases f <;> rfl

/-! ## Terminals -/

def kindAt (i : Nat) : String := (terminals[i]?).getD ""

theorem kind_of_terminal {kind : String} {i : Nat}
    (h : resolved.terminal kind = some (.terminal i)) : kind = kindAt i := by
  obtain ⟨j, hj, hi⟩ := Option.map_eq_some_iff.mp h
  cases hi
  exact (congrArg (Option.getD · "") (Grammar.lastIndexOf_lt hj).2).symm

/-- The kinds whose texts matter come first. -/
theorem kindAt_mem_iff {i : Nat} : kindAt i ∈ ["int", "void", "id", "num"] ↔ i < 4 := by
  have hall : ∀ i < 27, (kindAt i ∈ ["int", "void", "id", "num"] ↔ i < 4) := by decide +kernel
  by_cases hi : i < 27
  · exact hall i hi
  · have hnone : terminals[i]? = none := List.getElem?_eq_none (Nat.not_lt.mp hi)
    rw [kindAt, hnone]
    simp
    omega

/-- Every kind has its place. -/
theorem terminal_kindAt (i : Fin 27) : resolved.terminal (kindAt i) = some (.terminal i) := by
  revert i
  decide +kernel

@[simp] theorem terminal_resolved :
    resolved.terminal "id" = some (.terminal Place.id) ∧
    resolved.terminal "num" = some (.terminal Place.num) ∧
    resolved.terminal "(" = some (.terminal Place.parenOpen) ∧
    resolved.terminal ")" = some (.terminal Place.parenClose) ∧
    resolved.terminal "[" = some (.terminal Place.bracketOpen) ∧
    resolved.terminal "]" = some (.terminal Place.bracketClose) ∧
    resolved.terminal "\x7b" = some (.terminal Place.braceOpen) ∧
    resolved.terminal "\x7d" = some (.terminal Place.braceClose) ∧
    resolved.terminal "," = some (.terminal Place.comma) ∧
    resolved.terminal ";" = some (.terminal Place.semicolon) ∧
    resolved.terminal "=" = some (.terminal Place.assign) ∧
    resolved.terminal "if" = some (.terminal Place.ifWord) ∧
    resolved.terminal "else" = some (.terminal Place.elseWord) ∧
    resolved.terminal "while" = some (.terminal Place.whileWord) ∧
    resolved.terminal "return" = some (.terminal Place.returnWord) :=
  ⟨terminal_kindAt 2, terminal_kindAt 3, terminal_kindAt 4, terminal_kindAt 5, terminal_kindAt 6,
    terminal_kindAt 7, terminal_kindAt 8, terminal_kindAt 9, terminal_kindAt 10, terminal_kindAt 11,
    terminal_kindAt 12, terminal_kindAt 13, terminal_kindAt 14, terminal_kindAt 15,
    terminal_kindAt 16⟩

@[simp] theorem RelOp.terminal_kind (op : RelOp) :
    resolved.terminal op.kind = some (.terminal op.place) := by
  cases op with
  | le => exact terminal_kindAt 22
  | lt => exact terminal_kindAt 21
  | gt => exact terminal_kindAt 23
  | ge => exact terminal_kindAt 24
  | eq => exact terminal_kindAt 25
  | ne => exact terminal_kindAt 26

@[simp] theorem AddOp.terminal_kind (op : AddOp) :
    resolved.terminal op.kind = some (.terminal op.place) := by
  cases op with
  | plus => exact terminal_kindAt 17
  | minus => exact terminal_kindAt 18

@[simp] theorem MulOp.terminal_kind (op : MulOp) :
    resolved.terminal op.kind = some (.terminal op.place) := by
  cases op with
  | times => exact terminal_kindAt 19
  | div => exact terminal_kindAt 20

@[simp] theorem terminal_keyword (ty : ValueType) :
    resolved.terminal ty.keyword = some (.terminal (typePlace ty)) := by
  cases ty with
  | int => exact terminal_kindAt 0
  | void => exact terminal_kindAt 1

/-! ## Non-terminals -/

/-- Every non-terminal has its place. -/
theorem nonTerminal_place : ∀ entry ∈
    [("program", Place.program), ("define-list", Place.defineList), ("define", Place.define),
     ("define-type", Place.defineType), ("var-define-follow", Place.varDefineFollow),
     ("type", Place.type), ("fun-define-follow", Place.funDefineFollow),
     ("params", Place.params), ("param-list", Place.paramList),
     ("param-follow", Place.paramFollow), ("param", Place.param),
     ("array-subscript", Place.arraySubscript), ("code-block", Place.codeBlock),
     ("local-define-list", Place.localDefineList), ("local-var-define", Place.localVarDefine),
     ("code-list", Place.codeList), ("code", Place.code),
     ("normal-statement", Place.normalStatement),
     ("normal-statement-follow", Place.normalStatementFollow), ("call-follow", Place.callFollow),
     ("call-params", Place.callParams), ("call-param-list", Place.callParamList),
     ("call-param-follow", Place.callParamFollow),
     ("selection-statement", Place.selectionStatement),
     ("selection-follow", Place.selectionFollow),
     ("iteration-statement", Place.iterationStatement),
     ("iteration-follow", Place.iterationFollow), ("return-statement", Place.returnStatement),
     ("return-follow", Place.returnFollow), ("var-follow", Place.varFollow),
     ("expression", Place.expression), ("expression-follow", Place.expressionFollow),
     ("rel-op", Place.relOp), ("additive-expr", Place.additiveExpr),
     ("additive-expr-follow", Place.additiveExprFollow), ("add-op", Place.addOp),
     ("term", Place.term), ("term-follow", Place.termFollow), ("mul-op", Place.mulOp),
     ("factor", Place.factor), ("id-factor-follow", Place.idFactorFollow)],
    resolved.nonTerminal entry.1 = some (.nonTerminal entry.2) := by
  decide +kernel

end PredictiveParsing.Cminus
