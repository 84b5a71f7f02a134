import PredictiveParsing.Grammar.Fault

/-!
# Failures

How the compilation of a grammar or of a program can fail, with the words for each cause.
-/

namespace PredictiveParsing

/-- What an action found missing in a tree that does not fit it. -/
inductive Missing where
  | child
  | sibling
  | parent
  | tokenText
  | identifier
  | functionType
  | variableType
  | parameterType
  | enclosingFunction
  | functionScope
  | functionEntry
  | callTarget
  deriving DecidableEq, Repr

def Missing.message : Missing → String
  | child => "missing child"
  | sibling => "missing sibling"
  | parent => "missing parent"
  | tokenText => "token text not recorded"
  | identifier => "identifier not passed down"
  | functionType => "function type not passed down"
  | variableType => "variable type not passed down"
  | parameterType => "parameter type not recorded"
  | enclosingFunction => "parameter outside of a function"
  | functionScope => "function scope not registered"
  | functionEntry => "enclosing function not registered"
  | callTarget => "call target vanished"

inductive SemanticFault where
  | malformed (missing : Missing)
  | notType (text : String)
  | badLength (name text : String)
  | arrayTooLarge (name : String)
  | variableTooLarge (name : String)
  | redeclared (name : String)
  | voidVariable (name : String)
  | voidParameter (name : String)
  | redeclaredParameter (name : String)
  | undeclared (name : String)
  | undefinedFunction (name : String)
  | argumentCount (name : String) (expected given : Nat)
  | voidValue (name : String)
  | strayReturn
  | missingValue (function : String)
  | unwantedValue (function : String)
  | badLiteral (text : String)
  /-- A fault that is described where it is found. -/
  | stated (message : String)
  deriving DecidableEq, Repr

def SemanticFault.message : SemanticFault → String
  | malformed missing => s!"malformed tree: {missing.message}"
  | notType text => s!"`{text}` is not a type"
  | badLength name text => s!"array `{name}` needs a positive length, got `{text}`"
  | arrayTooLarge name => s!"array `{name}` is too large"
  | variableTooLarge name => s!"variable `{name}` is too large"
  | redeclared name => s!"`{name}` is already declared"
  | voidVariable name => s!"variable `{name}` declared void"
  | voidParameter name => s!"parameter `{name}` declared void"
  | redeclaredParameter name => s!"parameter `{name}` is already declared"
  | undeclared name => s!"undeclared identifier `{name}`"
  | undefinedFunction name => s!"call to undefined function `{name}`"
  | argumentCount name expected given =>
    s!"function `{name}` expects {expected} argument(s), got {given}"
  | voidValue name => s!"void function `{name}` used as a value"
  | strayReturn => "`return` outside of a function"
  | missingValue function => s!"function `{function}` must return a value"
  | unwantedValue function => s!"void function `{function}` cannot return a value"
  | badLiteral text => s!"invalid integer literal `{text}`"
  | stated message => message

inductive Failure where
  | grammar (fault : GrammarFault)
  /-- The token `text` fits nowhere here; the end of the input has no text. -/
  | unexpected (text : String) (line : Nat)
  /-- The slots of a production do not match its right side. -/
  | arity (production : String)
  | semantic (fault : SemanticFault) (line : Option Nat)
  deriving DecidableEq, Repr

namespace Failure

def line? : Failure → Option Nat
  | unexpected _ line => some line
  | semantic _ line => line
  | _ => none

def message : Failure → String
  | grammar fault => s!"grammar definition error: {fault.message}"
  | unexpected text line =>
    if text = "" then s!"syntax error at line {line}: unexpected end of input"
    else s!"syntax error at line {line}: unexpected `{text}`"
  | arity production =>
    s!"semantic rule count does not match right-hand side of `{production}`"
  | semantic fault (some line) => s!"semantic error at line {line}: {fault.message}"
  | semantic fault none => s!"semantic error: {fault.message}"

end Failure

end PredictiveParsing
