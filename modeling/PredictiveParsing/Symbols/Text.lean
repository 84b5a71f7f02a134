import PredictiveParsing.Json.Basic
import PredictiveParsing.Symbols.Pool

/-!
# Symbol pools as text and as JSON
-/

namespace PredictiveParsing

namespace Symbol

def describe : Symbol → String
  | globalVar name ty width offset => s!"{ty.keyword} {name} [width {width}, offset {offset}]"
  | localVar name ty width offset isParam =>
    let kind := if isParam then "param" else "local"
    s!"{kind} {ty.keyword} {name} [width {width}, offset {offset}]"
  | function name returns params _ =>
    let params := ", ".intercalate (params.map ValueType.keyword)
    s!"{returns.keyword} {name}({params})"

def toJson : Symbol → Json
  | globalVar name ty width offset =>
    .object [("kind", .string "global_var"), ("name", .string name), ("offset", .nat offset),
      ("ty", .string ty.keyword), ("width", .nat width)]
  | localVar name ty width offset isParam =>
    .object [("is_param", .bool isParam), ("kind", .string "local_var"), ("name", .string name),
      ("offset", .nat offset), ("ty", .string ty.keyword), ("width", .nat width)]
  | function name returns params scope =>
    .object [("kind", .string "fun"), ("name", .string name),
      ("param_types", Json.strings (params.map ValueType.keyword)),
      ("return_type", .string returns.keyword), ("scope", .nat scope)]

end Symbol

namespace SymbolTable

/-- One symbol a line. -/
def lines (t : SymbolTable) : List String := t.entries.map fun s => s!"  {s.describe}"

def toJson (t : SymbolTable) : Json :=
  .object [("entries", .array (t.entries.map Symbol.toJson)), ("width", .nat t.width)]

end SymbolTable

namespace Pool

def lines (p : Pool) : List String :=
  s!"globals (width {p.globals.width}):" :: p.globals.lines ++
    "functions:" :: p.functions.lines ++
      p.scopes.flatMap fun x => s!"scope {x.name} (width {x.table.width}):" :: x.table.lines

def render (p : Pool) : String := p.lines.foldl (fun text line => text ++ line ++ "\n") ""

def toJson (p : Pool) : Json :=
  .object
    [("funs", p.functions.toJson),
     ("global", p.globals.toJson),
     ("locals", .array (p.scopes.map fun x =>
        .object [("name", .string x.name), ("table", x.table.toJson)]))]

end Pool

end PredictiveParsing
