import PredictiveParsing.Grammar.Basic

/-!
# Grammars spelled by names

A declaration lists the two alphabets, the start symbol and the rules by name. `Declaration.grammar`
resolves the names: every name must be declared once, and a rule's right side may use both alphabets.

The slots of a rule are its explicit list when it has one, else one empty slot for each sign; then
each `placed` action is put at its position, the list growing as far as the position needs. Nothing
here asks that the slots match the right side. When a list would have to grow beyond the room that
there is, nothing is built, neither a grammar nor a fault.
-/

namespace PredictiveParsing

structure Rule (α : Type) where
  left : String
  right : List String
  opening : Option α := none
  closing : Option α := none
  slots : Option (List (Option α)) := none
  placed : List (Nat × α) := []
  deriving Repr

def rule {α : Type} (left : String) (right : List String) : Rule α := { left, right }

def epsilon {α : Type} (left : String) : Rule α := rule left []

namespace Rule

variable {α : Type}

def opens (r : Rule α) (action : α) : Rule α := { r with opening := some action }

def closes (r : Rule α) (action : α) : Rule α := { r with closing := some action }

/-- Run `action` right before the child at `position`. -/
def before (r : Rule α) (position : Nat) (action : α) : Rule α :=
  { r with placed := r.placed ++ [(position, action)] }

/-- The list with empty slots behind it up to `length`, if it has room for so many. -/
def lengthen? (room : Nat) (slots : List (Option α)) (length : Nat) : Option (List (Option α)) :=
  if length ≤ room then some (slots ++ List.replicate (length - slots.length) none) else none

/-- Put `action` at `position`, with empty slots up to there when the list is shorter. -/
def place? (room : Nat) (slots : List (Option α)) (position : Nat) (action : α) :
    Option (List (Option α)) := do
  let slots ← if position < slots.length then some slots else lengthen? room slots (position + 1)
  return slots.set position (some action)

def allSlots? (room : Nat) (r : Rule α) : Option (List (Option α)) :=
  r.placed.foldlM (fun slots (position, action) => place? room slots position action)
    (r.slots.getD (r.right.map fun _ => none))

end Rule

structure Declaration (α : Type) where
  terminals : List String
  nonTerminals : List String
  start : Option String
  rules : List (Rule α)
  deriving Repr

/-- The first name that stands in `seen` or earlier in the list. -/
def firstRepeated (seen : List String) : List String → Option String
  | [] => none
  | n :: ns => if n ∈ seen then some n else firstRepeated (n :: seen) ns

/-- What comes of building: a result, a fault, or nothing for want of room. -/
abbrev Building := ExceptT GrammarFault Option

/-- No list of slots is longer than this. -/
def slotLimit : Nat := 0x7fffffffffffffff

namespace Declaration

variable {α : Type}

/-- The sign of a name; a terminal is preferred. -/
def sign? (d : Declaration α) (name : String) : Option Sign :=
  match Grammar.lastIndexOf name d.terminals with
  | some i => some (.terminal i)
  | none => (Grammar.lastIndexOf name d.nonTerminals).map .nonTerminal

def resolveSigns (d : Declaration α) (left : String) : List String → Except GrammarFault (List Sign)
  | [] => .ok []
  | n :: ns =>
    match d.sign? n with
    | none => .error (.unknownSign n left)
    | some s => do return s :: (← resolveSigns d left ns)

def resolveRule (room : Nat) (d : Declaration α) (r : Rule α) : Building (Production α) :=
  match Grammar.lastIndexOf r.left d.nonTerminals with
  | none => throw (.leftNotNonTerminal r.left)
  | some left => do
    let right ← d.resolveSigns r.left r.right
    let slots ← r.allSlots? room
    return { left, right, opening := r.opening, closing := r.closing, slots }

def resolveRules (room : Nat) (d : Declaration α) : List (Rule α) → Building (List (Production α))
  | [] => return []
  | r :: rs => do
    let p ← d.resolveRule room r
    return p :: (← resolveRules room d rs)

/-- The grammar of a declaration, when lists of slots have this much room. -/
def build (room : Nat) (d : Declaration α) : Building (Grammar α) :=
  match firstRepeated [] (d.terminals ++ d.nonTerminals) with
  | some name => throw (.declaredTwice name)
  | none =>
    match d.start with
    | none => throw .noStart
    | some name =>
      match Grammar.lastIndexOf name d.nonTerminals with
      | none => throw (.startNotNonTerminal name)
      | some start => do
        let productions ← d.resolveRules room d.rules
        return { terminals := d.terminals, nonTerminals := d.nonTerminals, productions, start }

def grammar (d : Declaration α) : Except GrammarFault (Grammar α) :=
  (d.build slotLimit).run.getD (.error (.stated "capacity overflow"))

theorem grammar_eq_ok_iff {d : Declaration α} {g : Grammar α} :
    d.grammar = .ok g ↔ (d.build slotLimit).run = some (.ok g) := by
  rw [grammar]
  cases (d.build slotLimit).run <;> simp

end Declaration

end PredictiveParsing
