import PredictiveParsing.Cminus.Compiler
import PredictiveParsing.Command.FileTree
import PredictiveParsing.Command.Flags

/-!
# The table command

Compiles the C-minus grammar and writes its table document to the path given first, or to a path of
its own, making the directories that lead there.
-/

namespace PredictiveParsing.Command

namespace Generate

def defaultPath : String := "tables/parse_table.json"

/-- Exit with what was attempted and the cause of its failure. -/
def fail (said attempt cause : String) : Session :=
  .exit { code := 1, err := said ++ s!"Error: {attempt}\n\nCaused by:\n    {cause}\n" }

def warnings (env : Environment) (overlaps : List Overlap) : String :=
  if diagnosticsEnabled env then
    String.join (overlaps.map fun o => s!"[gen_parse_tables] warning: {o.message}\n")
  else ""

def writeTable (said path : String) (g : Grammar Cminus.Action) (c : Compiled) : Session :=
  .write path (TableDocument.ofCompiled g c).render fun
    | .error fault => fail said s!"writing {path}" fault.message
    | .ok () =>
      let counts := s!"({g.productions.length} productions, {c.table.filled} filled cells)"
      .exit { code := 0, out := s!"[gen_parse_tables] wrote {path} {counts}\n", err := said }

def intoPath (env : Environment) (path : String) (g : Grammar Cminus.Action) (c : Compiled) :
    Session :=
  let said := warnings env c.overlaps
  match (parentPath? path).filter (· ≠ "") with
  | none => writeTable said path g c
  | some parent =>
    .createDirectories parent fun
      | .error fault => fail said s!"creating {parent}" fault.message
      | .ok () => writeTable said path g c

end Generate

def generate (env : Environment) (arguments : List String) : Session :=
  match Cminus.grammar with
  | .error fault =>
    Generate.fail "" "building the C-minus grammar" (Failure.message (.grammar fault))
  | .ok g =>
    match Compiled.ofGrammar g with
    | .error fault =>
      Generate.fail "" "compiling the parse table" (Failure.message (.grammar fault))
    | .ok c => Generate.intoPath env (arguments.headD Generate.defaultPath) g c

end PredictiveParsing.Command
