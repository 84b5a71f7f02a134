import PredictiveParsing.Json.Decode
import PredictiveParsing.Table.Compile

/-!
# Table documents

A compiled table is written with the names of its signs, its productions as texts, its first and
follow sets and its cells. A document is loaded for a grammar: its alphabets, its production texts
and the shape of its cells must be those of the grammar, and every cell must hold a production of
its row; a blank table is filled with them cell by cell. The sets in it are for a reader's
information and are not looked at.
-/

namespace PredictiveParsing

structure NamedSet where
  nonTerminal : String
  signs : List String
  deriving DecidableEq, Repr

structure TableDocument where
  terminals : List String
  nonTerminals : List String
  productions : List String
  first : List NamedSet
  follow : List NamedSet
  cells : List (List (Option Nat))
  deriving DecidableEq, Repr

/-! ## Writing -/

namespace NamedSet

def toJson (s : NamedSet) : Json :=
  .object [("non_terminal", .string s.nonTerminal), ("signs", Json.strings s.signs)]

/-- The sets of a family with the names of their signs. -/
def ofFamily {α : Type} (g : Grammar α) (sets : Family) : List NamedSet :=
  sets.mapIdx fun nt A =>
    ⟨g.nameOf (.nonTerminal nt), A.members.map g.nameOf⟩

end NamedSet

namespace TableDocument

variable {α : Type}

def ofCompiled (g : Grammar α) (c : Compiled) : TableDocument where
  terminals := g.terminals
  nonTerminals := g.nonTerminals
  productions := g.productions.map g.textOf
  first := NamedSet.ofFamily g c.firsts
  follow := NamedSet.ofFamily g c.follows
  cells := c.table.rows

def toJson (d : TableDocument) : Json :=
  .object
    [("terminals", Json.strings d.terminals),
     ("non_terminals", Json.strings d.nonTerminals),
     ("productions", Json.strings d.productions),
     ("first", .array (d.first.map NamedSet.toJson)),
     ("follow", .array (d.follow.map NamedSet.toJson)),
     ("cells", .array (d.cells.map fun row => .array (row.map (Json.option Json.nat))))]

def render (d : TableDocument) : String := d.toJson.pretty

end TableDocument

/-! ## Reading -/

namespace NamedSet

def fields : List (Scan.Field NamedSet) :=
  [⟨"non_terminal", true, fun s x => do return { x with nonTerminal := ← s.text }⟩,
   ⟨"signs", true, fun s x => do return { x with signs := ← s.sequence Scan.text }⟩]

def read : Scan → Except ReadFault NamedSet := Scan.record "NamedSet" fields ⟨"", []⟩

end NamedSet

/-- Why a document cannot be loaded for a grammar. -/
inductive TableFault where
  | unreadable (fault : ReadFault)
  | otherTerminals
  | otherNonTerminals
  | productionCount (found expected : Nat)
  | otherProduction (index : Nat) (found expected : String)
  | rowCount (expected found : Nat)
  | columnCount (row expected found : Nat)
  | noProduction (row column production : Nat)
  | otherLeft (row column production : Nat)
  deriving DecidableEq, Repr

def TableFault.message : TableFault → String
  | unreadable fault => s!"Failed to parse table JSON: {fault.message}"
  | otherTerminals => "terminal alphabet does not match the grammar"
  | otherNonTerminals => "non-terminal alphabet does not match the grammar"
  | productionCount found expected => s!"table lists {found} productions, grammar has {expected}"
  | otherProduction index found expected =>
    s!"production {index} is `{found}`, grammar has `{expected}`"
  | rowCount expected found => s!"expected {expected} rows, found {found}"
  | columnCount row expected found => s!"row {row}: expected {expected} columns, found {found}"
  | noProduction row column production => s!"row {row} column {column}: no production {production}"
  | otherLeft row column production =>
    s!"row {row} column {column}: production {production} has a different left side"

namespace TableDocument

variable {α : Type}

def fields : List (Scan.Field TableDocument) :=
  [⟨"terminals", true, fun s d => do return { d with terminals := ← s.sequence Scan.text }⟩,
   ⟨"non_terminals", true, fun s d => do return { d with nonTerminals := ← s.sequence Scan.text }⟩,
   ⟨"productions", true, fun s d => do return { d with productions := ← s.sequence Scan.text }⟩,
   ⟨"first", false, fun s d => do return { d with first := ← s.sequence NamedSet.read }⟩,
   ⟨"follow", false, fun s d => do return { d with follow := ← s.sequence NamedSet.read }⟩,
   ⟨"cells", true, fun s d => do
      return { d with cells := ← s.sequence (Scan.sequence Scan.countOrNull) }⟩]

def read : Scan → Except ReadFault TableDocument :=
  Scan.record "TableDisk" fields ⟨[], [], [], [], [], []⟩

/-- The texts, from `index` on, are those of the productions. -/
def checkProductions (g : Grammar α) :
    Nat → List (Production α) → List String → Except TableFault Unit
  | index, p :: ps, text :: texts =>
    if text = g.textOf p then checkProductions g (index + 1) ps texts
    else .error (.otherProduction index text (g.textOf p))
  | _, _, _ => .ok ()

/-- Fill the cells of `row` from `column` on, each with a production of the row's non-terminal. -/
def fillCells (g : Grammar α) (row : Nat) :
    Nat → List (Option Nat) → Table → Except TableFault Table
  | _, [], t => .ok t
  | column, none :: cells, t => fillCells g row (column + 1) cells t
  | column, some i :: cells, t =>
    match g.productions[i]? with
    | none => .error (.noProduction row column i)
    | some p =>
      if p.left = row then fillCells g row (column + 1) cells (t.put row column i)
      else .error (.otherLeft row column i)

/-- Fill the rows from `row` on, each with a cell for each column. -/
def fillRows (g : Grammar α) : Nat → List (List (Option Nat)) → Table → Except TableFault Table
  | _, [], t => .ok t
  | row, cells :: rest, t =>
    if cells.length = t.columns then do
      let t ← fillCells g row 0 cells t
      fillRows g (row + 1) rest t
    else .error (.columnCount row t.columns cells.length)

/-- The table of a document for `g`. -/
def table (g : Grammar α) (d : TableDocument) : Except TableFault Table :=
  if d.terminals ≠ g.terminals then .error .otherTerminals
  else if d.nonTerminals ≠ g.nonTerminals then .error .otherNonTerminals
  else if d.productions.length ≠ g.productions.length then
    .error (.productionCount d.productions.length g.productions.length)
  else
    match checkProductions g 0 g.productions d.productions with
    | .error fault => .error fault
    | .ok () =>
      let blank := Table.blank d.nonTerminals.length d.terminals.length
      if d.cells.length ≠ blank.rows.length then
        .error (.rowCount blank.rows.length d.cells.length)
      else fillRows g 0 d.cells blank

end TableDocument

/-- The table that a document holds for `g`. -/
def Table.load {α : Type} (g : Grammar α) (d : Doc) : Except TableFault Table := do
  (← (Scan.readDoc TableDocument.read d).mapError .unreadable).table g

end PredictiveParsing
