import PredictiveParsing.Cminus.Action
import PredictiveParsing.Grammar.Declaration

/-!
# The C-minus language

Its alphabets, and its productions with the actions that check a program while it is parsed.
-/

namespace PredictiveParsing.Cminus

def terminals : List String :=
  ["int", "void", "id", "num", "(", ")", "[", "]", "\x7b", "\x7d", ",", ";", "=", "if", "else",
   "while", "return", "+", "-", "*", "/", "<", "<=", ">", ">=", "==", "!="]

def nonTerminals : List String :=
  ["program", "define-list", "define", "define-type", "var-define-follow", "type",
   "fun-define-follow", "params", "param-list", "param-follow", "param", "array-subscript",
   "code-block", "local-define-list", "local-var-define", "code-list", "code", "normal-statement",
   "normal-statement-follow", "call-follow", "call-params", "call-param-list", "call-param-follow",
   "selection-statement", "selection-follow", "iteration-statement", "iteration-follow",
   "return-statement", "return-follow", "var-follow", "expression", "expression-follow", "rel-op",
   "additive-expr", "additive-expr-follow", "add-op", "term", "term-follow", "mul-op", "factor",
   "id-factor-follow"]

/-! ## Rules -/

def declarationRules : List (Rule Action) :=
  [rule "program" ["define-list"],
   rule "define-list" ["define", "define-list"],
   epsilon "define-list",
   (rule "define" ["type", "id", "define-type"]).before 2 .captureDeclarator,
   (rule "define-type" ["var-define-follow"]).before 0 .inherit,
   (rule "define-type" ["fun-define-follow"]).before 0 .inherit,
   (rule "var-define-follow" [";"]).closes .declareVariable,
   (rule "var-define-follow" ["[", "num", "]", ";"]).closes .declareArray,
   (rule "type" ["int"]).closes .typeFromKeyword,
   (rule "type" ["void"]).closes .typeFromKeyword]

def functionRules : List (Rule Action) :=
  [(rule "fun-define-follow" ["(", "params", ")", "code-block"]).opens .openFunction,
   rule "params" ["param-list"],
   epsilon "params",
   rule "param-list" ["param", "param-follow"],
   rule "param-follow" [",", "param", "param-follow"],
   epsilon "param-follow",
   (rule "param" ["type", "id", "array-subscript"]).closes .declareParam,
   (rule "array-subscript" ["[", "]"]).closes .markArray,
   (epsilon "array-subscript").closes .markScalar,
   rule "code-block" ["\x7b", "local-define-list", "code-list", "\x7d"],
   rule "local-define-list" ["local-var-define", "local-define-list"],
   epsilon "local-define-list",
   (rule "local-var-define" ["type", "id", "var-define-follow"]).before 2 .captureDeclarator]

def statementRules : List (Rule Action) :=
  [rule "code-list" ["code", "code-list"],
   epsilon "code-list",
   rule "code" ["normal-statement"],
   rule "code" ["selection-statement"],
   rule "code" ["iteration-statement"],
   rule "code" ["return-statement"],
   rule "normal-statement" [";"],
   (rule "normal-statement" ["id", "normal-statement-follow"]).before 1 .passId,
   (rule "normal-statement-follow" ["var-follow", "=", "expression", ";"]).opens .resolveVariable,
   (rule "normal-statement-follow" ["call-follow", ";"]).before 0 .inherit,
   ((rule "call-follow" ["(", "call-params", ")"]).opens .resolveCall).closes .checkCall,
   (rule "call-params" ["call-param-list"]).closes (.argsFrom 0),
   (epsilon "call-params").closes .argsNone,
   (rule "call-param-list" ["expression", "call-param-follow"]).closes (.argsPrepend 1),
   (rule "call-param-follow" [",", "expression", "call-param-follow"]).closes (.argsPrepend 2),
   (epsilon "call-param-follow").closes .argsNone,
   rule "selection-statement"
     ["if", "(", "expression", ")", "\x7b", "code-list", "\x7d", "selection-follow"],
   rule "selection-follow" ["else", "\x7b", "code-list", "\x7d"],
   epsilon "selection-follow",
   rule "iteration-statement" ["while", "(", "expression", ")", "iteration-follow"],
   rule "iteration-follow" ["\x7b", "code-list", "\x7d"],
   rule "iteration-follow" ["code"],
   rule "return-statement" ["return", "return-follow"],
   (rule "return-follow" [";"]).opens .returnNothing,
   (rule "return-follow" ["expression", ";"]).opens .returnValue,
   rule "var-follow" ["[", "expression", "]"],
   epsilon "var-follow"]

def expressionRules : List (Rule Action) :=
  [rule "expression" ["additive-expr", "expression-follow"],
   rule "expression-follow" ["rel-op", "additive-expr"],
   epsilon "expression-follow",
   (rule "rel-op" ["<="]).closes .operator,
   (rule "rel-op" ["<"]).closes .operator,
   (rule "rel-op" [">"]).closes .operator,
   (rule "rel-op" [">="]).closes .operator,
   (rule "rel-op" ["=="]).closes .operator,
   (rule "rel-op" ["!="]).closes .operator,
   rule "additive-expr" ["term", "additive-expr-follow"],
   rule "additive-expr-follow" ["add-op", "term", "additive-expr-follow"],
   epsilon "additive-expr-follow",
   (rule "add-op" ["+"]).closes .operator,
   (rule "add-op" ["-"]).closes .operator,
   rule "term" ["factor", "term-follow"],
   rule "term-follow" ["mul-op", "factor", "term-follow"],
   epsilon "term-follow",
   (rule "mul-op" ["*"]).closes .operator,
   (rule "mul-op" ["/"]).closes .operator,
   rule "factor" ["(", "expression", ")"],
   (rule "factor" ["id", "id-factor-follow"]).before 1 .passId,
   (rule "factor" ["num"]).closes .literalValue,
   (rule "id-factor-follow" ["[", "expression", "]"]).opens .resolveVariable,
   ((rule "id-factor-follow" ["call-follow"]).before 0 .inherit).closes .requireValue,
   (epsilon "id-factor-follow").opens .resolveVariable]

def declaration : Declaration Action where
  terminals := terminals
  nonTerminals := nonTerminals
  start := some "program"
  rules := declarationRules ++ functionRules ++ statementRules ++ expressionRules

def grammar : Except GrammarFault (Grammar Action) := declaration.grammar

end PredictiveParsing.Cminus
