/-!
# Symbols and symbol tables

A symbol is a global variable, a local variable or parameter, or a function. A table lists symbols
in the order of their declaration and lays variables out one after the other: each starts at the
table's width so far. Widths and offsets are below `storageLimit`; a width that would go beyond stays
at the greatest one.

* `width_append`, `entries_append`: what appending does to a table.
-/

namespace PredictiveParsing

inductive ValueType where
  | int
  | void
  deriving DecidableEq, Repr, Inhabited

namespace ValueType

def ofKeyword? (word : String) : Option ValueType :=
  if word = "int" then some int else if word = "void" then some void else none

def keyword : ValueType → String
  | int => "int"
  | void => "void"

theorem ofKeyword?_keyword (ty : ValueType) : ofKeyword? ty.keyword = some ty := by
  cases ty <;> decide

end ValueType

/-- The width of an integer. -/
def intWidth : Nat := 4

/-- No address reaches this. -/
def storageLimit : Nat := 0x10000000000000000

inductive Symbol where
  | globalVar (name : String) (ty : ValueType) (width offset : Nat)
  | localVar (name : String) (ty : ValueType) (width offset : Nat) (isParam : Bool)
  | function (name : String) (returns : ValueType) (params : List ValueType) (scope : Nat)
  deriving DecidableEq, Repr, Inhabited

namespace Symbol

def name : Symbol → String
  | globalVar name .. => name
  | localVar name .. => name
  | function name .. => name

/-- The room a symbol takes; a function takes none. -/
def width : Symbol → Nat
  | globalVar _ _ width _ => width
  | localVar _ _ width _ _ => width
  | function .. => 0

def offset? : Symbol → Option Nat
  | globalVar _ _ _ offset => some offset
  | localVar _ _ _ offset _ => some offset
  | function .. => none

/-- The symbol moved to `offset`; a function has no place. -/
def placeAt (offset : Nat) : Symbol → Symbol
  | globalVar name ty width _ => globalVar name ty width offset
  | localVar name ty width _ isParam => localVar name ty width offset isParam
  | function name returns params scope => function name returns params scope

def isParam : Symbol → Bool
  | localVar _ _ _ _ isParam => isParam
  | _ => false

/-- The function with one more parameter; other symbols stay as they are. -/
def addParam (ty : ValueType) : Symbol → Symbol
  | function name returns params scope => function name returns (params ++ [ty]) scope
  | s => s

end Symbol

structure SymbolTable where
  entries : List Symbol := []
  width : Nat := 0
  deriving DecidableEq, Repr, Inhabited

namespace SymbolTable

/-- Declare `s` behind all others, whatever its name. -/
def append (t : SymbolTable) (s : Symbol) : SymbolTable where
  entries := t.entries ++ [s.placeAt t.width]
  width := min (t.width + s.width) (storageLimit - 1)

/-- `width` more would still be within the limit. -/
def hasRoom (t : SymbolTable) (width : Nat) : Bool := t.width + width < storageLimit

def exist (t : SymbolTable) (name : String) : Bool := t.entries.any fun s => s.name == name

/-- The first symbol of this name. -/
def query (t : SymbolTable) (name : String) : Option Symbol :=
  t.entries.find? fun s => s.name == name

/-- Change the first symbol of this name. -/
def update (t : SymbolTable) (name : String) (f : Symbol → Symbol) : SymbolTable :=
  { t with entries := t.entries.modify (t.entries.findIdx fun s => s.name == name) f }

@[simp] theorem entries_append (t : SymbolTable) (s : Symbol) :
    (t.append s).entries = t.entries ++ [s.placeAt t.width] := rfl

theorem width_append {t : SymbolTable} {s : Symbol} (h : t.hasRoom s.width = true) :
    (t.append s).width = t.width + s.width := by
  simp only [hasRoom, decide_eq_true_eq] at h
  simp only [append]
  omega

theorem exist_eq_isSome_query (t : SymbolTable) (name : String) :
    t.exist name = (t.query name).isSome := by
  rw [exist, query, Bool.eq_iff_iff, List.any_eq_true, List.find?_isSome]

end SymbolTable

end PredictiveParsing
