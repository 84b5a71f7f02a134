import PredictiveParsing.Json.Number

/-!
# JSON values

A value, its compact text, and its text with one member a line and two blanks a level. Members are
written in the order they are in; `sorted` puts them in the order of their keys at every level.
-/

namespace PredictiveParsing

inductive Json where
  | null
  | bool (value : Bool)
  | number (value : Number)
  | string (value : String)
  | array (items : List Json)
  | object (members : List (String × Json))
  deriving Inhabited

namespace Json

def nat (n : Nat) : Json := number (.integer n)

def option {α : Type} (f : α → Json) : Option α → Json
  | some a => f a
  | none => null

def strings (ss : List String) : Json := array (ss.map string)

/-! ## Text -/

def hexPair (n : Nat) : String :=
  String.ofList [Nat.digitChar (n / 16), Nat.digitChar (n % 16)]

def escapeChar (c : Char) : String :=
  if c = '"' then "\\\""
  else if c = '\\' then "\\\\"
  else if c = '\n' then "\\n"
  else if c = '\r' then "\\r"
  else if c = '\t' then "\\t"
  else if c.toNat = 8 then "\\b"
  else if c.toNat = 12 then "\\f"
  else if c.toNat < 0x20 then "\\u00" ++ hexPair c.toNat
  else c.toString

/-- `text` and then `s` between quotes. -/
def writeString (text s : String) : String :=
  (s.toList.foldl (fun text c => text ++ escapeChar c) (text.push '"')).push '"'

mutual

/-- `text` and then the value, without blanks. -/
def writeCompact (text : String) : Json → String
  | null => text ++ "null"
  | bool b => text ++ (if b then "true" else "false")
  | number n => text ++ (n.text?.getD "null")
  | string s => writeString text s
  | array items => (writeItems (text.push '[') true items).push ']'
  | object members => (writeMembers (text ++ "\x7b") true members) ++ "\x7d"

def writeItems (text : String) (first : Bool) : List Json → String
  | [] => text
  | v :: vs => writeItems (writeCompact (if first then text else text.push ',') v) false vs

def writeMembers (text : String) (first : Bool) : List (String × Json) → String
  | [] => text
  | (k, v) :: rest =>
    let text := (writeString (if first then text else text.push ',') k).push ':'
    writeMembers (writeCompact text v) false rest

end

def compact (v : Json) : String := writeCompact "" v

/-- `text` and then a new line with the blanks of its level. -/
def newLine (text : String) (level : Nat) : String :=
  (List.replicate level "  ").foldl (· ++ ·) (text.push '\n')

mutual

/-- `text` and then the value, its parts on lines of their own. -/
def writePretty (text : String) (level : Nat) : Json → String
  | null => text ++ "null"
  | bool b => text ++ (if b then "true" else "false")
  | number n => text ++ (n.text?.getD "null")
  | string s => writeString text s
  | array [] => text ++ "[]"
  | array (v :: vs) =>
    let text := writePretty (newLine (text.push '[') (level + 1)) (level + 1) v
    (newLine (writePrettyItems text (level + 1) vs) level).push ']'
  | object [] => text ++ "\x7b\x7d"
  | object ((k, v) :: rest) =>
    let text := writeString (newLine (text ++ "\x7b") (level + 1)) k ++ ": "
    let text := writePretty text (level + 1) v
    newLine (writePrettyMembers text (level + 1) rest) level ++ "\x7d"

def writePrettyItems (text : String) (level : Nat) : List Json → String
  | [] => text
  | v :: vs => writePrettyItems (writePretty (newLine (text.push ',') level) level v) level vs

def writePrettyMembers (text : String) (level : Nat) : List (String × Json) → String
  | [] => text
  | (k, v) :: rest =>
    let text := writeString (newLine (text.push ',') level) k ++ ": "
    writePrettyMembers (writePretty text level v) level rest

end

def pretty (v : Json) : String := writePretty "" 0 v

/-! ## Order of members -/

mutual

/-- The value with the members of every object in the order of their keys. -/
def sorted : Json → Json
  | array items => array (sortedItems items)
  | object members => object ((sortedMembers members).mergeSort fun a b => decide (a.1 ≤ b.1))
  | v => v

def sortedItems : List Json → List Json
  | [] => []
  | v :: vs => sorted v :: sortedItems vs

def sortedMembers : List (String × Json) → List (String × Json)
  | [] => []
  | (k, v) :: rest => (k, sorted v) :: sortedMembers rest

end

/-! ## Parts -/

/-- The value of the first member with this key. -/
def member? (key : String) : Json → Option Json
  | object members => (members.find? fun m => m.1 = key).map (·.2)
  | _ => none

end Json

end PredictiveParsing
