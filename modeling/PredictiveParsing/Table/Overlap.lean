import PredictiveParsing.Lookahead.First

/-!
# Overlap warnings

Findings about a grammar that do not stop its table: two productions of a non-terminal whose first
sets share a sign, the empty word counting as one, and a non-terminal that can vanish and whose
first and follow sets share a sign.
-/

namespace PredictiveParsing

inductive Overlap where
  | firstFirst (nonTerminal : String)
  | firstFollow (nonTerminal : String)
  deriving DecidableEq, Repr

namespace Overlap

def message : Overlap → String
  | firstFirst nonTerminal => s!"productions of `{nonTerminal}` have overlapping first sets"
  | firstFollow nonTerminal => s!"first and follow sets of `{nonTerminal}` overlap"

/-- Some two sets of the list share a member. -/
def anyShared : List SignSet → Bool
  | [] => false
  | A :: As => As.any (fun B => !A.disjoint B) || anyShared As

variable {α : Type}

/-- The warnings about one non-terminal. -/
def ofNonTerminal (g : Grammar α) (firsts follows : Family) (nt : Nat) :
    Except GrammarFault (List Overlap) := do
  let name := g.nameOf (.nonTerminal nt)
  let bodies ← (g.productionsOf nt).mapM fun (p, _) => firstOf firsts p.right
  let first ← firsts.at? nt
  let follow ← follows.at? nt
  return (if anyShared bodies then [firstFirst name] else []) ++
    (if .empty ∈ first ∧ !first.disjoint follow then [firstFollow name] else [])

/-- All warnings, by non-terminal. -/
def ofGrammar (g : Grammar α) (firsts follows : Family) : Except GrammarFault (List Overlap) := do
  let found ← (List.range g.nonTerminals.length).mapM (ofNonTerminal g firsts follows)
  return found.flatten

end Overlap

end PredictiveParsing
