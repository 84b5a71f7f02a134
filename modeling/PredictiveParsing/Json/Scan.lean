import PredictiveParsing.Json.Basic
import PredictiveParsing.Text.Utf8

/-!
# Scanning JSON documents

A scan is what a reader meets from left to right up to the first place where the document is no
JSON. Whoever uses a scan in the same order meets the faults of its own, such as a wrong type, before
or after that place as they stand in the document.

An array or object that breaks off is not `closed`; a value that breaks off is `broken`. A string
with characters that cannot be had (bytes that are no UTF-8, halves of surrogate pairs) is scanned
as `none`: it is at fault only when somebody wants its text.
-/

namespace PredictiveParsing

inductive Scan where
  | null
  | bool (value : Bool)
  | number (value : Number)
  | string (value : Option String)
  | array (items : List Scan) (closed : Bool)
  | object (members : List (Option String × Scan)) (closed : Bool)
  | broken
  deriving Inhabited

namespace Scan

/-! ## Blanks and words -/

def isBlank (c : Char) : Bool := c = ' ' || c = '\t' || c = '\r' || c = '\n'

def skipBlank : Doc → Doc
  | some c :: d => if isBlank c then skipBlank d else some c :: d
  | d => d

/-- What follows the given characters, when the document starts with them. -/
def after : List Char → Doc → Option Doc
  | [], d => some d
  | c :: cs, some x :: d => if x = c then after cs d else none
  | _ :: _, _ => none

/-! ## Numbers -/

def digit? (c : Char) : Option Nat := if c.isDigit then some (c.toNat - '0'.toNat) else none

def digits : Doc → List Nat × Doc
  | some c :: d =>
    match digit? c with
    | some n => let (ns, rest) := digits d; (n :: ns, rest)
    | none => ([], some c :: d)
  | d => ([], d)

/-- At least one digit. -/
def someDigits (d : Doc) : Option (List Nat × Doc) :=
  match digits d with
  | ([], _) => none
  | found => some found

/-- The digits before the point: at least one, and no zero in front of another. -/
def wholePart (d : Doc) : Option (List Nat × Doc) :=
  match someDigits d with
  | some (0 :: _ :: _, _) => none
  | found => found

def fractionPart : Doc → Option (List Nat × Doc)
  | some '.' :: d => someDigits d
  | d => some ([], d)

def exponentDigits (negative : Bool) (d : Doc) : Option (Option Int × Doc) := do
  let (ns, d) ← someDigits d
  let n : Nat := ns.foldl (fun n k => n * 10 + k) 0
  some (some (if negative then -(n : Int) else (n : Int)), d)

def exponentSign : Doc → Option (Option Int × Doc)
  | some '+' :: d => exponentDigits false d
  | some '-' :: d => exponentDigits true d
  | d => exponentDigits false d

def exponentPart : Doc → Option (Option Int × Doc)
  | some 'e' :: d => exponentSign d
  | some 'E' :: d => exponentSign d
  | d => some (none, d)

def numberAfterSign (negative : Bool) (d : Doc) : Option (Number × Doc) := do
  let (whole, d) ← wholePart d
  let (fraction, d) ← fractionPart d
  let (exponent, d) ← exponentPart d
  some (Number.ofDigits negative whole fraction exponent, d)

/-! ## Strings -/

def hexDigit? (c : Char) : Option Nat :=
  if c.isDigit then some (c.toNat - '0'.toNat)
  else if 'a' ≤ c ∧ c ≤ 'f' then some (c.toNat - 'a'.toNat + 10)
  else if 'A' ≤ c ∧ c ≤ 'F' then some (c.toNat - 'A'.toNat + 10)
  else none

def hexDigitsValue? : List (Option Char) → Option Nat
  | [some a, some b, some c, some d] => do
    some (((← hexDigit? a) * 16 + (← hexDigit? b)) * 256 + (← hexDigit? c) * 16 + (← hexDigit? d))
  | _ => none

def isHighSurrogate (n : Nat) : Bool := 0xD800 ≤ n && n < 0xDC00

def isLowSurrogate (n : Nat) : Bool := 0xDC00 ≤ n && n < 0xE000

def letterEscape? (c : Char) : Option Char :=
  if c = '"' ∨ c = '\\' ∨ c = '/' then some c
  else if c = 'b' then some (Char.ofNat 8)
  else if c = 'f' then some (Char.ofNat 12)
  else if c = 'n' then some '\n'
  else if c = 'r' then some '\r'
  else if c = 't' then some '\t'
  else none

/-- The characters so far, the last first; none when one of them cannot be had. -/
abbrev Collected := Option (List Char)

def Collected.push (so : Collected) (c : Char) : Collected := so.map (c :: ·)

def Collected.text (so : Collected) : Option String := so.map fun cs => String.ofList cs.reverse

/-- The rest of a string, after its opening quote. -/
def stringBody (so : Collected) : Doc → Option (Option String × Doc)
  | [] => none
  | none :: d => stringBody none d
  | some '"' :: d => some (so.text, d)
  | some '\\' :: some 'u' :: a :: b :: c :: e :: d =>
    match hexDigitsValue? [a, b, c, e] with
    | none => none
    | some n =>
      if isLowSurrogate n then stringBody none d
      else if isHighSurrogate n then
        match d with
        | some '\\' :: some 'u' :: a :: b :: c :: e :: d' =>
          match hexDigitsValue? [a, b, c, e] with
          | none => none
          | some m =>
            if isLowSurrogate m then
              stringBody (so.push (Char.ofNat (0x10000 + (n - 0xD800) * 0x400 + (m - 0xDC00)))) d'
            else stringBody none d'
        | d => stringBody none d
      else stringBody (so.push (Char.ofNat n)) d
  | some '\\' :: some c :: d =>
    match letterEscape? c with
    | some c => stringBody (so.push c) d
    | none => none
  | some '\\' :: _ => none
  | some c :: d => if c.toNat < 0x20 then none else stringBody (so.push c) d

/-! ## Values -/

/-- A scan that has nothing after it, since the document breaks off in it. -/
def stop (s : Scan) : Scan × Option Doc := (s, none)

def word (rest : List Char) (value : Scan) (d : Doc) : Scan × Option Doc :=
  match after rest d with
  | some d => (value, some d)
  | none => stop broken

def numberValue : Option (Number × Doc) → Scan × Option Doc
  | some (n, d) => (number n, some d)
  | none => stop broken

mutual

/-- The value at the front and what follows it. -/
def value : Nat → Doc → Scan × Option Doc
  | 0, _ => stop broken
  | fuel + 1, d =>
    match skipBlank d with
    | some '[' :: d =>
      match skipBlank d with
      | some ']' :: d => (array [] true, some d)
      | d => items fuel [] d
    | some '\x7b' :: d =>
      match skipBlank d with
      | some '\x7d' :: d => (object [] true, some d)
      | d => members fuel [] d
    | some '"' :: d =>
      match stringBody (some []) d with
      | some (s, d) => (string s, some d)
      | none => stop broken
    | some 'n' :: d => word ['u', 'l', 'l'] null d
    | some 't' :: d => word ['r', 'u', 'e'] (bool true) d
    | some 'f' :: d => word ['a', 'l', 's', 'e'] (bool false) d
    | some '-' :: d => numberValue (numberAfterSign true d)
    | d => numberValue (numberAfterSign false d)

/-- The items of an array, from one that must stand at the front on; `so` has the earlier ones. -/
def items : Nat → List Scan → Doc → Scan × Option Doc
  | 0, so, _ => stop (array so.reverse false)
  | fuel + 1, so, d =>
    match value fuel d with
    | (v, none) => stop (array (v :: so).reverse false)
    | (v, some d) =>
      match skipBlank d with
      | some ',' :: d => items fuel (v :: so) d
      | some ']' :: d => (array (v :: so).reverse true, some d)
      | _ => stop (array (v :: so).reverse false)

/-- The members of an object, from one that must stand at the front on. -/
def members : Nat → List (Option String × Scan) → Doc → Scan × Option Doc
  | 0, so, _ => stop (object so.reverse false)
  | fuel + 1, so, d =>
    match skipBlank d with
    | some '"' :: d =>
      match stringBody (some []) d with
      | none => stop (object so.reverse false)
      | some (key, d) =>
        match skipBlank d with
        | some ':' :: d =>
          match value fuel d with
          | (v, none) => stop (object ((key, v) :: so).reverse false)
          | (v, some d) =>
            match skipBlank d with
            | some ',' :: d => members fuel ((key, v) :: so) d
            | some '\x7d' :: d => (object ((key, v) :: so).reverse true, some d)
            | _ => stop (object ((key, v) :: so).reverse false)
        | _ => stop (object ((key, broken) :: so).reverse false)
    | _ => stop (object so.reverse false)

end

/-- The scan of a document, and whether nothing but blanks follows the value. -/
def ofDoc (d : Doc) : Scan × Bool :=
  match value (2 * d.length + 2) d with
  | (v, some rest) => (v, (skipBlank rest).isEmpty)
  | (v, none) => (v, false)

/-! ## Whole scans -/

mutual

/-- Nothing in the scan breaks off. -/
def isWhole : Scan → Bool
  | broken => false
  | array items closed => closed && allWhole items
  | object members closed => closed && allMembersWhole members
  | _ => true

def allWhole : List Scan → Bool
  | [] => true
  | v :: vs => isWhole v && allWhole vs

def allMembersWhole : List (Option String × Scan) → Bool
  | [] => true
  | (_, v) :: rest => isWhole v && allMembersWhole rest

end

mutual

/-- The value of a scan whose every text can be had. -/
def toJson? : Scan → Option Json
  | null => some .null
  | bool b => some (.bool b)
  | number n => some (.number n)
  | string s => s.map .string
  | array items closed => if closed then (itemsToJson? items).map .array else none
  | object members closed => if closed then (membersToJson? members).map .object else none
  | broken => none

def itemsToJson? : List Scan → Option (List Json)
  | [] => some []
  | v :: vs =>
    match toJson? v, itemsToJson? vs with
    | some j, some js => some (j :: js)
    | _, _ => none

def membersToJson? : List (Option String × Scan) → Option (List (String × Json))
  | [] => some []
  | (key, v) :: rest =>
    match key, toJson? v, membersToJson? rest with
    | some k, some j, some js => some ((k, j) :: js)
    | _, _, _ => none

end

end Scan

/-- The value of a document that is one JSON value and nothing else. -/
def Json.ofDoc? (d : Doc) : Option Json :=
  match Scan.ofDoc d with
  | (scan, true) => scan.toJson?
  | (_, false) => none

end PredictiveParsing
