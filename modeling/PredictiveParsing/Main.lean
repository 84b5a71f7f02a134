import PredictiveParsing.Command.Compile
import PredictiveParsing.Command.Generate

/-!
# The program

Answers the questions of a command over real files. Under the name `gen_parse_tables` the program is
the table command, under any other the compile command.
-/

namespace PredictiveParsing.Command

def FileFault.ofSystem : IO.Error → FileFault
  | .noFileOrDirectory .. => .notFound
  | .alreadyExists .. => .alreadyThere
  | .inappropriateType _ 20 _ => .notDirectory
  | .inappropriateType _ 21 _ => .isDirectory
  | e => .other (toString e)

/-- The result of an action on files, or the fault that it met. -/
def attempt {α : Type} (action : IO α) : IO (Except FileFault α) := do
  try
    return .ok (← action)
  catch e =>
    return .error (FileFault.ofSystem e)

/-- Milliseconds with three places, from microseconds. -/
def milliseconds (micros : Nat) : String :=
  let places := toString (micros % 1000)
  s!"{micros / 1000}." ++ "".pushn '0' (3 - places.length) ++ places

def Session.answer (began : Nat) : Session → IO Output
  | exit output => return output
  | read path go => do
    let found ← attempt (IO.FS.readBinFile path)
    answer began (go (found.map fun bytes => bytes.toList))
  | makeDirectory path go => do answer began (go (← attempt (IO.FS.createDir path)))
  | isDirectory path go => do answer began (go (← ((← IO.currentDir) / path).isDir))
  | write path content go => do answer began (go (← attempt (IO.FS.writeFile path content)))
  | elapsed go => do
    let now ← IO.monoNanosNow
    answer began (go (milliseconds ((now - began) / 1000)))

/-- The flags' variables as far as they are set. -/
def systemEnvironment : IO Environment :=
  ["CMINUSC_DIAGNOSTICS", "CMINUSC_TREE"].filterMapM fun name => do
    return (← IO.getEnv name).map fun value => (name, value)

def runProgram (arguments : List String) : IO UInt32 := do
  let began ← IO.monoNanosNow
  let env ← systemEnvironment
  let name := (← IO.appPath).fileName
  let session :=
    if name = some "gen_parse_tables" then generate env arguments else compile env arguments
  let output ← session.answer began
  (← IO.getStdout).putStr output.out
  (← IO.getStderr).putStr output.err
  return output.code.toUInt32

end PredictiveParsing.Command

def main (arguments : List String) : IO UInt32 := PredictiveParsing.Command.runProgram arguments
