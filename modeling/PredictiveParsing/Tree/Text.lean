import PredictiveParsing.Grammar.Basic
import PredictiveParsing.Json.Basic
import PredictiveParsing.Tree.Basic

/-!
# Parse trees as text and as JSON
-/

namespace PredictiveParsing

def Attributes.toJson (a : Attributes) : Json :=
  .object
    [("add", Json.option Json.nat a.add),
     ("code", Json.strings a.code),
     ("flag", Json.option Json.bool a.flag),
     ("fun", Json.option Json.string a.function),
     ("id", Json.option Json.string a.id),
     ("length", Json.option Json.nat a.length),
     ("lexical", Json.option Json.string a.lexical),
     ("line", Json.option Json.nat a.line),
     ("mul", Json.option Json.nat a.mul),
     ("names", Json.strings a.names),
     ("num", Json.option (fun n => .number (.integer n)) a.num),
     ("op", Json.option Json.string a.op),
     ("ty", Json.option (fun ty : ValueType => .string ty.keyword) a.ty)]

namespace Tree

variable {α : Type}

/-- One node a line, two blanks a level: its name, its text, the line of a terminal, its type. -/
def nodeLine (g : Grammar α) (n : Node) (depth : Nat) : String :=
  let indent := "".pushn ' ' (2 * depth)
  let lexical := n.attrs.lexical.elim "" fun text => s!" `{text}`"
  let line := if n.sign.isTerminal then n.attrs.line.elim "" fun line => s!" @{line}" else ""
  let ty := n.attrs.ty.elim "" fun ty => s!" : {ty.keyword}"
  let empty := if n.sign.isNonTerminal && n.children.isEmpty then " -> empty" else ""
  indent ++ g.nameOf n.sign ++ lexical ++ line ++ ty ++ empty

def render (t : Tree) (g : Grammar α) : String :=
  t.preorder.foldl (fun text (id, depth) =>
    match t.node? id with
    | some n => text ++ nodeLine g n depth ++ "\n"
    | none => text) ""

def nodeJson (g : Grammar α) (id : Nat) (n : Node) : Json :=
  .object
    [("attrs", n.attrs.toJson),
     ("children", .array (n.children.map Json.nat)),
     ("id", .nat id),
     ("parent", Json.option Json.nat n.parent),
     ("sign", .string (g.nameOf n.sign))]

/-- The nodes below and at the root in pre-order. -/
def toJson (t : Tree) (g : Grammar α) : Json :=
  let nodes := t.preorder.filterMap fun (id, _) => (t.node? id).map (nodeJson g id)
  .object [("nodes", .array nodes), ("root", .nat root)]

end Tree

end PredictiveParsing
