/-!
# Flags of the environment

A flag is off when its variable holds `0` or the word `false` in any letter case, and on when it
holds anything else. A variable that is not set leaves the flag at its default.
-/

namespace PredictiveParsing.Command

/-- The variables that are set. -/
abbrev Environment := List (String × String)

/-- A letter in lower case, for the letters of ASCII. -/
def lowerAscii (c : Char) : Char := if 'A' ≤ c ∧ c ≤ 'Z' then Char.ofNat (c.toNat + 32) else c

def isOff (value : String) : Bool :=
  value = "0" || value.toList.map lowerAscii = ['f', 'a', 'l', 's', 'e']

def flag (env : Environment) (name : String) (default : Bool) : Bool :=
  match env.lookup name with
  | some value => !isOff value
  | none => default

/-- Whether grammar warnings are shown. -/
def diagnosticsEnabled (env : Environment) : Bool := flag env "CMINUSC_DIAGNOSTICS" true

/-- Whether the parse tree is shown. -/
def treeEnabled (env : Environment) : Bool := flag env "CMINUSC_TREE" true

end PredictiveParsing.Command
