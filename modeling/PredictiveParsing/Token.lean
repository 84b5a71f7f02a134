import PredictiveParsing.Json.Decode

/-!
# Tokens

A token names a terminal by its kind and carries its text and its line. A token document is an array
of such records.
-/

namespace PredictiveParsing

structure Token where
  kind : String
  text : String
  line : Nat
  deriving DecidableEq, Repr

namespace Token

def fields : List (Scan.Field Token) :=
  [⟨"kind", true, fun s t => do return { t with kind := ← s.text }⟩,
   ⟨"text", true, fun s t => do return { t with text := ← s.text }⟩,
   ⟨"line", true, fun s t => do return { t with line := ← s.count }⟩]

def read : Scan → Except ReadFault Token := Scan.record "Token" fields ⟨"", "", 0⟩

/-- The tokens of a document, or what is wrong with it in words. -/
def ofDoc (d : Doc) : Except String (List Token) :=
  (Scan.readDoc (Scan.sequence read) d).mapError fun fault =>
    s!"Failed to parse token JSON: {fault.message}"

end Token

end PredictiveParsing
