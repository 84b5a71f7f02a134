import PredictiveParsing.Command.Path
import PredictiveParsing.Text.Utf8

/-!
# Sessions

A command as a dialogue with its surroundings: it asks for a file to be read or written, for a
directory to be made or looked for, or for the time, waits for the answer, and in the end exits with a
code and its output. Whoever holds the session answers: a program over real files, or a `FileTree`.
-/

namespace PredictiveParsing.Command

inductive FileFault where
  | notFound
  | alreadyThere
  | notDirectory
  | isDirectory
  /-- A fault in the words of the system. -/
  | other (message : String)
  deriving DecidableEq, Repr

def FileFault.message : FileFault → String
  | notFound => "No such file or directory (os error 2)"
  | alreadyThere => "File exists (os error 17)"
  | notDirectory => "Not a directory (os error 20)"
  | isDirectory => "Is a directory (os error 21)"
  | other message => message

structure Output where
  code : Nat
  out : String := ""
  err : String := ""
  deriving DecidableEq, Repr, Inhabited

inductive Session where
  | exit (output : Output)
  | read (path : String) (go : Except FileFault (List UInt8) → Session)
  /-- Make one directory, in one that is there. -/
  | makeDirectory (path : String) (go : Except FileFault Unit → Session)
  | isDirectory (path : String) (go : Bool → Session)
  | write (path content : String) (go : Except FileFault Unit → Session)
  /-- Ask for the milliseconds since the session began. -/
  | elapsed (go : String → Session)

instance : Inhabited Session := ⟨.exit default⟩

namespace Session

/-- Make a directory, unless it is there. -/
def ensureDirectory (path : String) (go : Except FileFault Unit → Session) : Session :=
  .makeDirectory path fun
    | .ok () => go (.ok ())
    | .error fault => .isDirectory path fun there => go (if there then .ok () else .error fault)

/-- Make a directory, and before it, when it has nowhere to stand, the one that its path puts it in;
this at most `bound` levels up. -/
def createUpTo : Nat → String → (Except FileFault Unit → Session) → Session
  | 0, _, go => go (.error .notFound)
  | bound + 1, path, go =>
    if path = "" then go (.ok ())
    else
      ensureDirectory path fun
        | .ok () => go (.ok ())
        | .error .notFound =>
          match parentPath? path with
          | none => go (.error .notFound)
          | some parent =>
            createUpTo bound parent fun
              | .ok () => ensureDirectory path go
              | .error fault => go (.error fault)
        | .error fault => go (.error fault)

/-- Make a directory with all that lead to it; a path has fewer levels than characters and one. -/
def createDirectories (path : String) (go : Except FileFault Unit → Session) : Session :=
  createUpTo (path.length + 1) path go

end Session

end PredictiveParsing.Command
