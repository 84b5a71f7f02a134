/-!
# Paths

A path is read as the parts between its slashes. Empty parts stand for nothing; a slash at the end asks
for a directory.
-/

namespace PredictiveParsing.Command

structure Path where
  /-- The path starts at the root. -/
  absolute : Bool
  /-- The parts that are not empty. -/
  parts : List String
  /-- The path ends in a slash. -/
  slashed : Bool
  deriving DecidableEq, Repr

def splitPath (cs : List Char) : List (List Char) := cs.splitOnP (· == '/')

namespace Path

/-- The empty text is no path. -/
def ofString? (text : String) : Option Path :=
  match text.toList with
  | [] => none
  | c :: cs =>
    some
      { absolute := c == '/'
        parts := ((splitPath (c :: cs)).filter (· ≠ [])).map String.ofList
        slashed := (c :: cs).getLast? == some '/' }

/-- The part names no entry of its own, but a directory that is already reached or the one above. -/
def isDots (part : String) : Bool := part = "." || part = ".."

end Path

/-! ## The directory part -/

/-- A part that leads nowhere. -/
def isIdle (part : List Char) : Bool := part = [] || part = ['.']

/-- Drop idle parts, but keep a dot that starts the path. -/
def dropIdle : List (List Char) → List (List Char)
  | [['.']] => [['.']]
  | part :: parts => if isIdle part then dropIdle parts else part :: parts
  | [] => []

/-- The directory part of a path: none for the empty path and the root, empty for a single name. -/
def parentPath? (path : String) : Option String :=
  match path.toList with
  | '/' :: cs =>
    match (splitPath cs).reverse.dropWhile isIdle with
    | [] => none
    | _ :: parts => some (String.ofList ('/' :: ['/'].intercalate (parts.dropWhile isIdle).reverse))
  | cs =>
    match dropIdle (splitPath cs).reverse with
    | [] => none
    | _ :: parts => some (String.ofList (['/'].intercalate (dropIdle parts).reverse))

end PredictiveParsing.Command
