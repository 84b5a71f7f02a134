import PredictiveParsing.Json.Basic

/-!
# The characters of a printed value

A value is printed by adding to a text. Here are the characters that each printer adds
(`quoted`, `lineBreak`, `chars`), and that it adds exactly these whatever the text is
(`toList_writeString`, `toList_newLine`, `toList_writePretty`), so that `pretty` has the characters
of the value at the outermost level (`toList_pretty`).
-/

namespace PredictiveParsing.Json

/-- The characters of a text between quotes. -/
def quoted (s : String) : List Char :=
  '"' :: (s.toList.flatMap fun c => (escapeChar c).toList) ++ ['"']

def lineBreak (level : Nat) : List Char := '\n' :: List.replicate (2 * level) ' '

mutual

/-- The characters of a value on a line that is begun; its other lines are at `level` or deeper. -/
def chars (level : Nat) : Json → List Char
  | null => "null".toList
  | bool b => (if b then "true" else "false").toList
  | number n => (n.text?.getD "null").toList
  | string s => quoted s
  | array [] => ['[', ']']
  | array (v :: vs) =>
    '[' :: (lineBreak (level + 1) ++ chars (level + 1) v ++ itemChars (level + 1) vs ++
      lineBreak level ++ [']'])
  | object [] => ['\x7b', '\x7d']
  | object ((k, v) :: rest) =>
    '\x7b' :: (lineBreak (level + 1) ++ quoted k ++ [':', ' '] ++ chars (level + 1) v ++
      memberChars (level + 1) rest ++ lineBreak level ++ ['\x7d'])

/-- The characters of the items after the first. -/
def itemChars (level : Nat) : List Json → List Char
  | [] => []
  | v :: vs => ',' :: (lineBreak level ++ chars level v ++ itemChars level vs)

/-- The characters of the members after the first. -/
def memberChars (level : Nat) : List (String × Json) → List Char
  | [] => []
  | (k, v) :: rest =>
    ',' :: (lineBreak level ++ quoted k ++ [':', ' '] ++ chars level v ++ memberChars level rest)

end

/-! ## The printers add these characters -/

theorem toList_foldl_append {β : Type} (f : β → String) (xs : List β) (text : String) :
    (xs.foldl (fun text x => text ++ f x) text).toList =
      text.toList ++ xs.flatMap fun x => (f x).toList := by
  induction xs generalizing text with
  | nil => simp
  | cons x xs ih => simp [ih]

theorem toList_writeString (text s : String) :
    (writeString text s).toList = text.toList ++ quoted s := by
  simp [writeString, quoted, toList_foldl_append]

theorem toList_newLine (text : String) (level : Nat) :
    (newLine text level).toList = text.toList ++ lineBreak level := by
  have hblanks : ((List.replicate level "  ").flatMap fun s => s.toList) =
      List.replicate (2 * level) ' ' := by
    induction level with
    | zero => rfl
    | succ level ih =>
      have hpair : "  ".toList = List.replicate 2 ' ' := by decide
      rw [List.replicate_succ, List.flatMap_cons, ih, hpair, List.replicate_append_replicate,
        Nat.mul_succ, Nat.add_comm]
  rw [newLine, toList_foldl_append (fun s => s), hblanks, lineBreak]
  simp

mutual

theorem toList_writePretty (text : String) (level : Nat) :
    ∀ v, (writePretty text level v).toList = text.toList ++ chars level v
  | null => by simp [writePretty, chars]
  | bool b => by simp [writePretty, chars]
  | number n => by simp [writePretty, chars]
  | string s => by rw [writePretty, chars, toList_writeString]
  | array [] => by simp [writePretty, chars]
  | array (v :: vs) => by
    simp [writePretty, chars, toList_newLine, toList_writePretty, toList_writePrettyItems]
  | object [] => by simp [writePretty, chars]
  | object ((k, v) :: rest) => by
    simp [writePretty, chars, toList_newLine, toList_writeString, toList_writePretty,
      toList_writePrettyMembers]

theorem toList_writePrettyItems (text : String) (level : Nat) :
    ∀ vs, (writePrettyItems text level vs).toList = text.toList ++ itemChars level vs
  | [] => by simp [writePrettyItems, itemChars]
  | v :: vs => by
    simp [writePrettyItems, itemChars, toList_newLine, toList_writePretty, toList_writePrettyItems]

theorem toList_writePrettyMembers (text : String) (level : Nat) :
    ∀ rest, (writePrettyMembers text level rest).toList = text.toList ++ memberChars level rest
  | [] => by simp [writePrettyMembers, memberChars]
  | (k, v) :: rest => by
    simp [writePrettyMembers, memberChars, toList_newLine, toList_writeString, toList_writePretty,
      toList_writePrettyMembers]

end

theorem toList_pretty (v : Json) : v.pretty.toList = chars 0 v := by
  rw [pretty, toList_writePretty]
  rfl

end PredictiveParsing.Json
