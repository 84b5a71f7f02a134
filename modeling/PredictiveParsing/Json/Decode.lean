import PredictiveParsing.Json.Scan
import PredictiveParsing.Text.Quoted

/-!
# Reading typed data off a scan

Readers for texts, counts, sequences and records, and the faults they find. A record is an object
with its fields in any order, or an array with its fields in theirs; keys that are no field are
passed over, as long as their values are JSON. Faults come in the order of the document: a field met
again before its value, a field that is missing at the closing brace.
-/

namespace PredictiveParsing

inductive ReadFault where
  /-- The document is no JSON, or a text or number in it cannot be had. -/
  | malformed
  | missing (field : String)
  | repeated (field : String)
  | wrongType (found expected : String)
  | wrongValue (found expected : String)
  | wrongLength (length : Nat) (expected : String)
  deriving DecidableEq, Repr

def ReadFault.message : ReadFault → String
  | malformed => "<invalid JSON>"
  | missing field => s!"missing field `{field}`"
  | repeated field => s!"duplicate field `{field}`"
  | wrongType found expected => s!"invalid type: {found}, expected {expected}"
  | wrongValue found expected => s!"invalid value: {found}, expected {expected}"
  | wrongLength length expected => s!"invalid length {length}, expected {expected}"

namespace Scan

/-- How a fault names what it found. -/
def kind : Scan → Except ReadFault String
  | null => .ok "null"
  | bool b => .ok (if b then "boolean `true`" else "boolean `false`")
  | number (.integer n) => .ok s!"integer `{n}`"
  | number n =>
    match n.text? with
    | some text => .ok s!"floating point `{text}`"
    | none => .error .malformed
  | string (some s) => .ok s!"string {Text.quote s}"
  | array _ _ => .ok "sequence"
  | object _ _ => .ok "map"
  | string none => .error .malformed
  | broken => .error .malformed

def refuse {α : Type} (s : Scan) (expected : String) : Except ReadFault α := do
  .error (.wrongType (← s.kind) expected)

def text : Scan → Except ReadFault String
  | string (some s) => .ok s
  | s => s.refuse "a string"

def count : Scan → Except ReadFault Nat
  | number (.integer n) =>
    if n < 0 then .error (.wrongValue s!"integer `{n}`" "usize") else .ok n.toNat
  | s => s.refuse "usize"

def countOrNull : Scan → Except ReadFault (Option Nat)
  | null => .ok none
  | s => return some (← s.count)

def sequence {α : Type} (read : Scan → Except ReadFault α) : Scan → Except ReadFault (List α)
  | array items closed => do
    let read ← items.mapM read
    if closed then return read else .error .malformed
  | s => s.refuse "a sequence"

/-! ## Records -/

/-- A field of a record that is built up in `σ`. -/
structure Field (σ : Type) where
  name : String
  required : Bool
  read : Scan → σ → Except ReadFault σ

variable {σ : Type}

/-- The fields in their order, from item `index` on. -/
def positional (expected : String) (closed : Bool) :
    Nat → List (Field σ) → List Scan → σ → Except ReadFault σ
  | _, [], [], x => if closed then .ok x else .error .malformed
  | _, [], _ :: _, _ => .error .malformed
  | index, f :: fs, item :: items, x => do
    positional expected closed (index + 1) fs items (← f.read item x)
  | index, f :: fs, [], x =>
    if !closed then .error .malformed
    else if f.required then .error (.wrongLength index expected)
    else positional expected closed (index + 1) fs [] x

/-- The fields by their names; those in `seen` came before. -/
def named (fields : List (Field σ)) (closed : Bool) :
    List String → List (Option String × Scan) → σ → Except ReadFault σ
  | seen, [], x =>
    if !closed then .error .malformed
    else
      match fields.find? fun f => f.required && !seen.contains f.name with
      | some f => .error (.missing f.name)
      | none => .ok x
  | _, (none, _) :: _, _ => .error .malformed
  | seen, (some key, v) :: rest, x =>
    match fields.find? fun f => f.name = key with
    | none => if v.isWhole then named fields closed seen rest x else .error .malformed
    | some f =>
      if seen.contains key then .error (.repeated key)
      else do named fields closed (key :: seen) rest (← f.read v x)

/-- A record called `name`, starting from `x`. -/
def record (name : String) (fields : List (Field σ)) (x : σ) : Scan → Except ReadFault σ
  | array items closed =>
    positional s!"struct {name} with {fields.length} elements" closed 0 fields items x
  | object members closed => named fields closed [] members x
  | s => s.refuse s!"struct {name}"

/-- What `read` makes of a document that is one value and nothing else. -/
def readDoc {α : Type} (read : Scan → Except ReadFault α) (d : Doc) : Except ReadFault α := do
  let (scan, complete) := ofDoc d
  let x ← read scan
  if complete then return x else .error .malformed

end Scan

end PredictiveParsing
