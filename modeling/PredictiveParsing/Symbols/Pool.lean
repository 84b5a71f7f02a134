import PredictiveParsing.Symbols.Basic

/-!
# The symbol pool

One table of global variables, one table of functions, and a named table of locals for each
function, in the order in which the functions were opened. At first there are the functions `input`
and `output` and their scopes.
-/

namespace PredictiveParsing

structure Scope where
  name : String
  table : SymbolTable := {}
  deriving DecidableEq, Repr, Inhabited

namespace Scope

def append (s : Scope) (symbol : Symbol) : Scope := { s with table := s.table.append symbol }

def params (s : Scope) : List Symbol := s.table.entries.filter Symbol.isParam

end Scope

structure Pool where
  globals : SymbolTable := {}
  scopes : List Scope := []
  functions : SymbolTable := {}
  deriving DecidableEq, Repr, Inhabited

/-- A scope seen from inside: its own table and the global one around it. -/
structure ScopeView where
  inner : Scope
  outer : SymbolTable

namespace ScopeView

def exist (v : ScopeView) (name : String) : Bool := v.outer.exist name || v.inner.table.exist name

/-- The local symbol of this name, else the global one. -/
def lookup (v : ScopeView) (name : String) : Option Symbol :=
  match v.inner.table.query name with
  | some s => some s
  | none => v.outer.query name

end ScopeView

namespace Pool

/-- The number that the next scope gets. -/
def nextScope (p : Pool) : Nat := p.scopes.length

def openScope (p : Pool) (name : String) : Pool := { p with scopes := p.scopes ++ [{ name }] }

def appendGlobal (p : Pool) (s : Symbol) : Pool := { p with globals := p.globals.append s }

def appendFunction (p : Pool) (s : Symbol) : Pool := { p with functions := p.functions.append s }

/-- Append to the first scope of this name. -/
def appendLocal (p : Pool) (scope : String) (s : Symbol) : Pool :=
  { p with scopes := p.scopes.modify (p.scopes.findIdx fun x => x.name == scope) (·.append s) }

/-- One more parameter for the first function entry of this name. -/
def addParam (p : Pool) (name : String) (ty : ValueType) : Pool :=
  { p with functions := p.functions.update name (·.addParam ty) }

/-- The first scope of this name. -/
def scope? (p : Pool) (name : String) : Option Scope := p.scopes.find? fun x => x.name == name

def view? (p : Pool) (name : String) : Option ScopeView :=
  (p.scope? name).map fun inner => { inner, outer := p.globals }

def function? (p : Pool) (name : String) : Option Symbol := p.functions.query name

/-- The pool of a program without declarations. -/
def initial : Pool where
  globals := {}
  scopes := [{ name := "input" },
    { name := "output", table := SymbolTable.append {} (.localVar "num" .int intWidth 0 true) }]
  functions := SymbolTable.append (SymbolTable.append {} (.function "input" .int [] 0))
    (.function "output" .void [.int] 1)

end Pool

/-! ## Declarations -/

/-- What a program can declare, a parameter or local together with its function. -/
inductive Binding where
  | globalVar (name : String) (ty : ValueType) (width : Nat)
  | localVar (function name : String) (ty : ValueType) (width : Nat)
  | function (name : String) (returns : ValueType)
  | param (function name : String) (ty : ValueType)
  deriving DecidableEq, Repr

/-- The pool after a declaration. -/
def Pool.declare (p : Pool) : Binding → Pool
  | .globalVar name ty width => p.appendGlobal (.globalVar name ty width 0)
  | .localVar function name ty width => p.appendLocal function (.localVar name ty width 0 false)
  | .function name returns =>
    (p.openScope name).appendFunction (.function name returns [] p.nextScope)
  | .param function name ty =>
    (p.appendLocal function (.localVar name ty intWidth 0 true)).addParam function ty

end PredictiveParsing
