import PredictiveParsing.Grammar.Declaration

/-!
# Declarations made call by call

A declaration is put together by calls in any order: names come behind those that were named before,
rules behind those before, and the start symbol is the last one given. A rule is drafted by its two
sides and calls of its own: of the calls for one slot list, one opening or one closing action the
last one counts, while every action placed before a child is kept.
-/

namespace PredictiveParsing

namespace Rule

variable {α : Type}

/-- Take `slots` for the whole list of slots, whatever its length. -/
def listing (r : Rule α) (slots : List (Option α)) : Rule α := { r with slots := some slots }

inductive Call (α : Type) where
  | opens (action : α)
  | closes (action : α)
  | before (position : Nat) (action : α)
  | listing (slots : List (Option α))
  deriving Repr

def call (r : Rule α) : Call α → Rule α
  | .opens action => r.opens action
  | .closes action => r.closes action
  | .before position action => r.before position action
  | .listing slots => r.listing slots

/-- The sides of a rule and the calls made on it. -/
structure Draft (α : Type) where
  left : String
  right : List String
  calls : List (Call α) := []
  deriving Repr

def ofDraft (d : Draft α) : Rule α := d.calls.foldl call (rule d.left d.right)

end Rule

namespace Declaration

variable {α : Type}

inductive Call (α : Type) where
  | terminals (names : List String)
  | nonTerminals (names : List String)
  | start (name : String)
  | rule (draft : Rule.Draft α)
  | rules (drafts : List (Rule.Draft α))
  deriving Repr

def call (d : Declaration α) : Call α → Declaration α
  | .terminals names => { d with terminals := d.terminals ++ names }
  | .nonTerminals names => { d with nonTerminals := d.nonTerminals ++ names }
  | .start name => { d with start := some name }
  | .rule draft => { d with rules := d.rules ++ [.ofDraft draft] }
  | .rules drafts => { d with rules := d.rules ++ drafts.map .ofDraft }

def blank : Declaration α := { terminals := [], nonTerminals := [], start := none, rules := [] }

def ofCalls (calls : List (Call α)) : Declaration α := calls.foldl call blank

end Declaration

end PredictiveParsing
