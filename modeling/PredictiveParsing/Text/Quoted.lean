import PredictiveParsing.Text.Printable

/-!
# Quoted text

A text between double quotes in which nothing is invisible: quotes and backslashes are escaped, the
usual controls have their letters, and any other character that does not show stands as its code
point in braces.
-/

namespace PredictiveParsing.Text

/-- The code point between braces, in hexadecimal. -/
def codePoint (c : Char) : String :=
  "\\u\x7b" ++ String.ofList (Nat.toDigits 16 c.toNat) ++ "\x7d"

def quoteChar (c : Char) : String :=
  if c = '"' then "\\\""
  else if c = '\\' then "\\\\"
  else if c = '\n' then "\\n"
  else if c = '\r' then "\\r"
  else if c = '\t' then "\\t"
  else if c.toNat = 0 then "\\0"
  else if c.toNat < 0x7F ∧ 0x20 ≤ c.toNat then c.toString
  else if isExtender c ∨ isHidden c then codePoint c
  else c.toString

def quote (s : String) : String :=
  s.toList.foldl (fun text c => text ++ quoteChar c) "\"" ++ "\""

end PredictiveParsing.Text
