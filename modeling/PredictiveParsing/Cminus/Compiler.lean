import PredictiveParsing.Cminus.Language
import PredictiveParsing.Parse.Run
import PredictiveParsing.Symbols.Text
import PredictiveParsing.Table.Document
import PredictiveParsing.Tree.Text

/-!
# The C-minus compiler

The grammar with a table for it, compiled here or read from a document. Each program is parsed and
checked against symbol tables of its own.
-/

namespace PredictiveParsing.Cminus

/-- A program that was parsed without a fault. -/
structure Program where
  tree : Tree
  symbols : Pool
  deriving DecidableEq

def Program.toJson (p : Program) (g : Grammar Action) : Json :=
  .object [("symbols", p.symbols.toJson), ("tree", p.tree.toJson g)]

structure Compiler where
  grammar : Grammar Action
  table : Table
  overlaps : List Overlap

namespace Compiler

/-- The compiler with the table that its grammar has. -/
def ofGrammar : Except Failure Compiler := do
  let g ← Cminus.grammar.mapError .grammar
  let c ← (Compiled.ofGrammar g).mapError .grammar
  return ⟨g, c.table, c.overlaps⟩

/-- The compiler with the table of a document. -/
def ofDoc (d : Doc) : Except Failure Compiler := do
  let g ← Cminus.grammar.mapError .grammar
  let table ← (Table.load g d).mapError fun fault => .grammar (.stated fault.message)
  return ⟨g, table, []⟩

def machine (c : Compiler) : Machine Action := ⟨c.grammar, c.table, semantics⟩

def run (c : Compiler) (tokens : List Token) : Run Action := c.machine.run tokens Pool.initial

/-- The program that the tokens spell, or its failure. -/
def compile (c : Compiler) (tokens : List Token) : Option (Except Failure Program) :=
  let r := c.run tokens
  r.result?.map fun result => result.map fun tree => ⟨tree, r.pool⟩

end Compiler

/-- The document of the table that the grammar has. -/
def tableDocument : Except Failure TableDocument := do
  let g ← grammar.mapError .grammar
  let c ← (Compiled.ofGrammar g).mapError .grammar
  return TableDocument.ofCompiled g c

end PredictiveParsing.Cminus
