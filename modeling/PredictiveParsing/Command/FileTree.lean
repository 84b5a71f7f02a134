import PredictiveParsing.Command.Session

/-!
# Files in memory

Directories and files that answer the questions of a session. A place is reached from the root, or
from the working directory or one above it. What the directories above hold is not known, and nothing
is found in them or in the root but what is made there or put there.
-/

namespace PredictiveParsing.Command

/-! ## Places -/

/-- Where the way to a place begins. -/
inductive Top where
  | root
  /-- The directory so many levels above the working one. -/
  | above (levels : Nat)
  deriving DecidableEq, Repr

/-- The names on the way down from a top, the last first. -/
structure Place where
  top : Top
  names : List String
  deriving DecidableEq, Repr

namespace Place

def working : Place := ⟨.above 0, []⟩

def down (p : Place) (name : String) : Place := ⟨p.top, name :: p.names⟩

/-- One level up; the root has none above it. -/
def up : Place → Place
  | ⟨top, _ :: names⟩ => ⟨top, names⟩
  | ⟨.above levels, []⟩ => ⟨.above (levels + 1), []⟩
  | ⟨.root, []⟩ => ⟨.root, []⟩

/-- Where a path starts. -/
def startOf (p : Path) : Place := if p.absolute then ⟨.root, []⟩ else working

@[simp] theorem up_down (p : Place) (name : String) : (p.down name).up = p := rfl

end Place

/-- What stands at a place: a file with its content, or a directory. -/
inductive Entry where
  | file (content : List UInt8)
  | directory
  deriving DecidableEq, Repr

/-- What a path leads to. -/
inductive Target where
  /-- A directory that is there, reached by dots or by nothing. -/
  | directory (place : Place)
  /-- A name in a directory that is there, perhaps with a slash behind it. -/
  | entry (place : Place) (slashed : Bool)
  deriving DecidableEq, Repr

/-! ## Trees -/

structure FileTree where
  entries : List (Place × Entry) := []
  deriving DecidableEq, Repr, Inhabited

namespace FileTree

def entry? (t : FileTree) (place : Place) : Option Entry :=
  if place.names = [] then some .directory else t.entries.lookup place

def set (t : FileTree) (place : Place) (e : Entry) : FileTree :=
  ⟨(place, e) :: t.entries.filter fun x => x.1 ≠ place⟩

/-- Walk from a directory along parts of a path that must all lead to directories. -/
def walk (t : FileTree) : Place → List String → Except FileFault Place
  | place, [] => .ok place
  | place, part :: rest =>
    if part = "." then walk t place rest
    else if part = ".." then walk t place.up rest
    else
      match t.entry? (place.down part) with
      | none => .error .notFound
      | some (.file _) => .error .notDirectory
      | some .directory => walk t (place.down part) rest

/-- What a path leads to; only its last name need not be there. -/
def resolve (t : FileTree) (path : String) : Except FileFault Target :=
  match Path.ofString? path with
  | none => .error .notFound
  | some p =>
    match p.parts.reverse with
    | [] => .ok (.directory (Place.startOf p))
    | last :: before =>
      if Path.isDots last then (t.walk (Place.startOf p) p.parts).map .directory
      else do
        let above ← t.walk (Place.startOf p) before.reverse
        return .entry (above.down last) p.slashed

/-! ## Answers -/

def read (t : FileTree) (path : String) : Except FileFault (List UInt8) := do
  match ← t.resolve path with
  | .directory _ => .error .isDirectory
  | .entry place slashed =>
    match t.entry? place with
    | none => .error .notFound
    | some .directory => .error .isDirectory
    | some (.file content) => if slashed then .error .notDirectory else return content

def makeDirectory (t : FileTree) (path : String) : Except FileFault FileTree := do
  match ← t.resolve path with
  | .directory _ => .error .alreadyThere
  | .entry place _ =>
    match t.entry? place with
    | none => return t.set place .directory
    | some _ => .error .alreadyThere

def isDirectory (t : FileTree) (path : String) : Bool :=
  match t.resolve path with
  | .error _ => false
  | .ok (.directory _) => true
  | .ok (.entry place _) => t.entry? place == some .directory

/-- Put the content into a file, a new one or one that is there. No new file is made for a path that
ends in a slash. -/
def write (t : FileTree) (path : String) (content : List UInt8) : Except FileFault FileTree := do
  match ← t.resolve path with
  | .directory _ => .error .isDirectory
  | .entry place slashed =>
    if slashed ∨ t.entry? place = some .directory then .error .isDirectory
    else return t.set place (.file content)

/-! ## Building a tree -/

/-- The tree with directories at all places down to the one with these names. -/
def addDirectories (t : FileTree) (top : Top) : List String → FileTree
  | [] => t
  | name :: names =>
    let t := addDirectories t top names
    match t.entry? ⟨top, name :: names⟩ with
    | none => t.set ⟨top, name :: names⟩ .directory
    | some _ => t

/-- The tree with a directory for each of the paths, and those that lead there. -/
def withDirectories (t : FileTree) (paths : List String) : FileTree :=
  paths.foldl (fun t path =>
    match Path.ofString? path with
    | none => t
    | some p => t.addDirectories (Place.startOf p).top p.parts.reverse) t

/-- The tree with one more file, and the directories that lead to it. -/
def addFile (t : FileTree) (path : String) (content : List UInt8) : FileTree :=
  match Path.ofString? path with
  | none => t
  | some p =>
    let top := (Place.startOf p).top
    let names := (p.parts.filter (· ≠ ".")).reverse
    (t.addDirectories top names.tail).set ⟨top, names⟩ (.file content)

/-- What the root of a usual system holds: some directories, and the file that is always empty. -/
def system : FileTree :=
  (withDirectories {} ["/bin", "/dev", "/etc", "/home", "/proc", "/root", "/tmp", "/usr", "/var"]).addFile
    "/dev/null" []

end FileTree

/-! ## Sessions over a tree -/

/-- The output of a session whose questions the tree answers, and the tree after it. The time is not
known and is given as `_`. -/
def Session.answeredBy (t : FileTree) : Session → Output × FileTree
  | exit output => (output, t)
  | read path go => (go (t.read path)).answeredBy t
  | makeDirectory path go =>
    match t.makeDirectory path with
    | .ok t => (go (.ok ())).answeredBy t
    | .error fault => (go (.error fault)).answeredBy t
  | isDirectory path go => (go (t.isDirectory path)).answeredBy t
  | write path content go =>
    match t.write path content.toUTF8.toList with
    | .ok t => (go (.ok ())).answeredBy t
    | .error fault => (go (.error fault)).answeredBy t
  | elapsed go => (go "_").answeredBy t

end PredictiveParsing.Command
