import PredictiveParsing.Cminus.Action
import PredictiveParsing.Token

/-!
# Programs of C-minus

Abstract syntax. Expressions and statements are one family of phrases, so that an induction over a
phrase has one case for each form. `spelling` lists the tokens of a program with the texts that
matter; `Spells` says that a list of tokens is a program but for the texts of punctuation and
operators and for lines.
-/

namespace PredictiveParsing

/-- A token without its line, and without its text where the kind says all. -/
def Token.bare (t : Token) : Token where
  kind := t.kind
  text := if t.kind ∈ ["int", "void", "id", "num"] then t.text else ""
  line := 0

namespace Cminus

/-- A token whose text does not matter. -/
def symbol (kind : String) : Token := ⟨kind, "", 0⟩

def lexeme (kind text : String) : Token := ⟨kind, text, 0⟩

def identifier (name : String) : Token := lexeme "id" name

/-! ## Operators -/

inductive RelOp where
  | le
  | lt
  | gt
  | ge
  | eq
  | ne
  deriving DecidableEq, Repr

def RelOp.kind : RelOp → String
  | le => "<="
  | lt => "<"
  | gt => ">"
  | ge => ">="
  | eq => "=="
  | ne => "!="

inductive AddOp where
  | plus
  | minus
  deriving DecidableEq, Repr

def AddOp.kind : AddOp → String
  | plus => "+"
  | minus => "-"

inductive MulOp where
  | times
  | div
  deriving DecidableEq, Repr

def MulOp.kind : MulOp → String
  | times => "*"
  | div => "/"

/-! ## Expressions and statements -/

inductive Category where
  | expression
  | sum
  | sumTail
  | term
  | termTail
  | factor
  | arguments
  | argumentTail
  | statement
  | statements
  deriving DecidableEq, Repr

inductive Phrase : Category → Type where
  | plain (s : Phrase .sum) : Phrase .expression
  | compare (l : Phrase .sum) (op : RelOp) (r : Phrase .sum) : Phrase .expression
  | sum (t : Phrase .term) (rest : Phrase .sumTail) : Phrase .sum
  | sumEnd : Phrase .sumTail
  | add (op : AddOp) (t : Phrase .term) (rest : Phrase .sumTail) : Phrase .sumTail
  | term (f : Phrase .factor) (rest : Phrase .termTail) : Phrase .term
  | termEnd : Phrase .termTail
  | multiply (op : MulOp) (f : Phrase .factor) (rest : Phrase .termTail) : Phrase .termTail
  | group (e : Phrase .expression) : Phrase .factor
  | var (name : String) : Phrase .factor
  | element (name : String) (index : Phrase .expression) : Phrase .factor
  | call (name : String) (args : Phrase .arguments) : Phrase .factor
  | number (text : String) : Phrase .factor
  | noArguments : Phrase .arguments
  | arguments (e : Phrase .expression) (rest : Phrase .argumentTail) : Phrase .arguments
  | argumentEnd : Phrase .argumentTail
  | argument (e : Phrase .expression) (rest : Phrase .argumentTail) : Phrase .argumentTail
  | skip : Phrase .statement
  | assign (name : String) (value : Phrase .expression) : Phrase .statement
  | assignElement (name : String) (index value : Phrase .expression) : Phrase .statement
  | invoke (name : String) (args : Phrase .arguments) : Phrase .statement
  | choose (condition : Phrase .expression) (body : Phrase .statements) : Phrase .statement
  | chooseElse (condition : Phrase .expression) (body other : Phrase .statements) :
      Phrase .statement
  | loop (condition : Phrase .expression) (body : Phrase .statements) : Phrase .statement
  | loopOne (condition : Phrase .expression) (body : Phrase .statement) : Phrase .statement
  | leave : Phrase .statement
  | giveBack (e : Phrase .expression) : Phrase .statement
  | done : Phrase .statements
  | step (s : Phrase .statement) (rest : Phrase .statements) : Phrase .statements

namespace Phrase

def spelling {c : Category} : Phrase c → List Token
  | plain s => s.spelling
  | compare l op r => l.spelling ++ symbol op.kind :: r.spelling
  | sum t rest => t.spelling ++ rest.spelling
  | sumEnd => []
  | add op t rest => symbol op.kind :: t.spelling ++ rest.spelling
  | term f rest => f.spelling ++ rest.spelling
  | termEnd => []
  | multiply op f rest => symbol op.kind :: f.spelling ++ rest.spelling
  | group e => symbol "(" :: e.spelling ++ [symbol ")"]
  | var name => [identifier name]
  | element name index => [identifier name, symbol "["] ++ index.spelling ++ [symbol "]"]
  | call name args => [identifier name, symbol "("] ++ args.spelling ++ [symbol ")"]
  | number text => [lexeme "num" text]
  | noArguments => []
  | arguments e rest => e.spelling ++ rest.spelling
  | argumentEnd => []
  | argument e rest => symbol "," :: e.spelling ++ rest.spelling
  | skip => [symbol ";"]
  | assign name value => [identifier name, symbol "="] ++ value.spelling ++ [symbol ";"]
  | assignElement name index value =>
    [identifier name, symbol "["] ++ index.spelling ++ [symbol "]", symbol "="] ++
      value.spelling ++ [symbol ";"]
  | invoke name args =>
    [identifier name, symbol "("] ++ args.spelling ++ [symbol ")", symbol ";"]
  | choose condition body =>
    [symbol "if", symbol "("] ++ condition.spelling ++ [symbol ")", symbol "\x7b"] ++
      body.spelling ++ [symbol "\x7d"]
  | chooseElse condition body other =>
    [symbol "if", symbol "("] ++ condition.spelling ++ [symbol ")", symbol "\x7b"] ++
      body.spelling ++ [symbol "\x7d", symbol "else", symbol "\x7b"] ++ other.spelling ++
      [symbol "\x7d"]
  | loop condition body =>
    [symbol "while", symbol "("] ++ condition.spelling ++ [symbol ")", symbol "\x7b"] ++
      body.spelling ++ [symbol "\x7d"]
  | loopOne condition body =>
    [symbol "while", symbol "("] ++ condition.spelling ++ symbol ")" :: body.spelling
  | leave => [symbol "return", symbol ";"]
  | giveBack e => symbol "return" :: e.spelling ++ [symbol ";"]
  | done => []
  | step s rest => s.spelling ++ rest.spelling

/-- The number of arguments. -/
def count {c : Category} : Phrase c → Nat
  | arguments _ rest => rest.count + 1
  | argument _ rest => rest.count + 1
  | _ => 0

end Phrase

/-! ## Definitions -/

/-- A keyword of this kind; its text is what counts as the type. -/
structure TypeName where
  kind : ValueType
  text : String
  deriving DecidableEq, Repr

/-- A variable, or an array with the text of its length. -/
structure Variable where
  type : TypeName
  name : String
  length : Option String
  deriving DecidableEq, Repr

structure Parameter where
  type : TypeName
  name : String
  isArray : Bool
  deriving DecidableEq, Repr

structure Function where
  type : TypeName
  name : String
  parameters : List Parameter
  locals : List Variable
  body : Phrase .statements

inductive Definition where
  | var (v : Variable)
  | function (f : Function)

/-- A program as it is written. -/
abbrev Source := List Definition

def TypeName.spelling (t : TypeName) : Token := lexeme t.kind.keyword t.text

def Variable.spelling (v : Variable) : List Token :=
  [v.type.spelling, identifier v.name] ++
    match v.length with
    | none => [symbol ";"]
    | some length => [symbol "[", lexeme "num" length, symbol "]", symbol ";"]

def Parameter.spelling (p : Parameter) : List Token :=
  [p.type.spelling, identifier p.name] ++ if p.isArray then [symbol "[", symbol "]"] else []

/-- The parameters after the first, each behind a comma. -/
def parametersTail (ps : List Parameter) : List Token :=
  ps.flatMap fun p => symbol "," :: p.spelling

def parametersSpelling : List Parameter → List Token
  | [] => []
  | p :: ps => p.spelling ++ parametersTail ps

def Function.spelling (f : Function) : List Token :=
  [f.type.spelling, identifier f.name, symbol "("] ++ parametersSpelling f.parameters ++
    [symbol ")", symbol "\x7b"] ++ f.locals.flatMap Variable.spelling ++ f.body.spelling ++
    [symbol "\x7d"]

def Definition.spelling : Definition → List Token
  | var v => v.spelling
  | function f => f.spelling

def Source.spelling (source : Source) : List Token := source.flatMap Definition.spelling

def Source.Spells (source : Source) (tokens : List Token) : Prop :=
  tokens.map Token.bare = source.spelling

end Cminus

end PredictiveParsing
