import PredictiveParsing.Grammar.Sign

/-!
# Faults of a grammar

What can be wrong with a grammar or with a table made for it, one constructor a cause, and the
wording of each.
-/

namespace PredictiveParsing

inductive GrammarFault where
  | declaredTwice (name : String)
  | noStart
  | startNotNonTerminal (name : String)
  | leftNotNonTerminal (name : String)
  | unknownSign (name left : String)
  | startOutOfRange (index : Nat)
  /-- A sign that does not fit the alphabets, or stands where signs of its kind cannot. -/
  | misplaced (sign : Sign)
  /-- A sign that selects no column of a table. -/
  | notLookahead (sign : Sign)
  /-- Two productions of `nonTerminal` both want the cell of `lookahead`. -/
  | conflict (nonTerminal lookahead earlier later : String)
  /-- A fault found elsewhere and described there. -/
  | stated (message : String)
  deriving DecidableEq, Repr

namespace GrammarFault

def message : GrammarFault → String
  | declaredTwice name => s!"sign `{name}` is declared twice"
  | noStart => "no start symbol set"
  | startNotNonTerminal name => s!"start symbol `{name}` is not a non-terminal"
  | leftNotNonTerminal name => s!"left side `{name}` is not a non-terminal"
  | unknownSign name left => s!"unknown sign `{name}` in a production of `{left}`"
  | startOutOfRange index => s!"start symbol index {index} out of range"
  | misplaced sign => s!"terminal or non-terminal kind error: {sign.spelling}"
  | notLookahead sign =>
    s!"terminal or non-terminal kind error: {sign.spelling} cannot be a lookahead"
  | conflict nonTerminal lookahead earlier later =>
    s!"grammar is not LL(1): `{nonTerminal}` on `{lookahead}` is claimed by `{earlier}` and `{later}`"
  | stated message => message

end GrammarFault

end PredictiveParsing
