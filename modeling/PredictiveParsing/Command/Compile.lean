import PredictiveParsing.Cminus.Compiler
import PredictiveParsing.Command.Flags
import PredictiveParsing.Command.Session

/-!
# The compile command

Reads a token document, parses it with the compiled table or one that is read from a file, and
shows the tree and the symbol tables as text or as JSON.
-/

namespace PredictiveParsing.Command

namespace Compile

structure Options where
  tokens : String
  json : Bool := false
  table : Option String := none
  deriving DecidableEq, Repr

/-- Why the arguments are not taken. -/
inductive Refusal where
  | usage
  | unexpected (argument : String)
  deriving DecidableEq, Repr

/-- Read the arguments from left to right; the first that is wrong decides. -/
def readArguments (tokens : Option String) (json : Bool) (table : Option String) :
    List String → Except Refusal Options
  | [] =>
    match tokens with
    | some tokens => .ok { tokens, json, table }
    | none => .error .usage
  | "--json" :: rest => readArguments tokens true table rest
  | "--table" :: path :: rest => readArguments tokens json (some path) rest
  | ["--table"] => .error .usage
  | "-h" :: _ => .error .usage
  | "--help" :: _ => .error .usage
  | argument :: rest =>
    match tokens with
    | none => readArguments (some argument) json table rest
    | some _ => .error (.unexpected argument)

def usage : Session :=
  .exit { code := 2, err := "usage: cminusc <tokens.json> [--json] [--table <table.json>]\n" }

/-- Exit with an error in words, after what was said before. -/
def fail (said message : String) : Session :=
  .exit { code := 1, err := said ++ s!"[cminusc] error: {message}\n" }

/-- The warnings about the grammar, when they are wanted. -/
def warnings (env : Environment) (overlaps : List Overlap) : String :=
  if diagnosticsEnabled env then
    String.join (overlaps.map fun o => s!"[cminusc] warning: {o.message}\n")
  else ""

/-- Show what a parse of `tokens` many tokens came to. -/
def present (env : Environment) (options : Options) (g : Grammar Cminus.Action) (said : String)
    (tokens : Nat) (p : Cminus.Program) : Session :=
  if options.json then
    .exit { code := 0, out := (p.toJson g).pretty ++ "\n", err := said }
  else
    .elapsed fun time =>
      let tree := if treeEnabled env then p.tree.render g else ""
      let count := s!"[cminusc] {tokens} tokens, {p.tree.size - 1} nodes in {time} ms\n"
      .exit { code := 0, out := tree ++ p.symbols.render ++ count, err := said }

/-- Read the tokens and parse them. -/
def compileTokens (env : Environment) (options : Options) (c : Cminus.Compiler) : Session :=
  let said := warnings env c.overlaps
  .read options.tokens fun
    | .error fault => fail said s!"reading {options.tokens}: {fault.message}"
    | .ok bytes =>
      match Token.ofDoc (Doc.ofBytes bytes) with
      | .error message => fail said message
      | .ok tokens =>
        match c.compile tokens with
        | some (.ok p) => present env options c.grammar said tokens.length p
        | some (.error failure) => fail said s!"compiling {options.tokens}: {failure.message}"
        | none => fail said s!"compiling {options.tokens}: the parse does not end"

/-- Take the compiler with the table that the options ask for. -/
def withOptions (env : Environment) (options : Options) : Session :=
  match options.table with
  | none =>
    match Cminus.Compiler.ofGrammar with
    | .ok c => compileTokens env options c
    | .error failure => fail "" s!"compiling the C-minus grammar: {failure.message}"
  | some path =>
    .read path fun
      | .error fault => fail "" s!"reading {path}: {fault.message}"
      | .ok bytes =>
        match Cminus.Compiler.ofDoc (Doc.ofBytes bytes) with
        | .ok c => compileTokens env options c
        | .error failure => fail "" s!"loading table {path}: {failure.message}"

end Compile

def compile (env : Environment) (arguments : List String) : Session :=
  match Compile.readArguments none false none arguments with
  | .ok options => Compile.withOptions env options
  | .error .usage => Compile.usage
  | .error (.unexpected argument) => Compile.fail "" s!"unexpected argument `{argument}`"

end PredictiveParsing.Command
