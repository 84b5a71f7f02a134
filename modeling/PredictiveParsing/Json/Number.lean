import PredictiveParsing.Decimal.Shortest

/-!
# Numbers in documents

An integer literal that fits in 64 bits is an integer, and `-0` is not one. Every other number is a
decimal: as many of its leading digits as fit in 64 unsigned bits, and a power of ten. Digits that no
longer fit raise the power when they stand before the point and are dropped when they stand after it.

A decimal means a double: its digits as a double, multiplied or divided by the power of ten as a
double. There is none when that is beyond the doubles.
-/

namespace PredictiveParsing

inductive Number where
  | integer (value : Int)
  | decimal (negative : Bool) (digits : Nat) (exponent : Int)
  deriving DecidableEq, Repr

namespace Number

/-- Significands are below this. -/
def digitLimit : Nat := 0x10000000000000000

/-- Append digits while the number still fits; also how many were appended. -/
def absorb (number : Nat) : List Nat → Nat × Nat
  | [] => (number, 0)
  | d :: ds =>
    if number * 10 + d < digitLimit then
      let (absorbed, count) := absorb (number * 10 + d) ds
      (absorbed, count + 1)
    else (number, 0)

/-- The number with the given digits before and after the point. -/
def ofDigits (negative : Bool) (whole fraction : List Nat) (exponent : Option Int) : Number :=
  let (n, taken) := absorb 0 whole
  let raised := whole.length - taken
  if raised = 0 ∧ fraction = [] ∧ exponent = none then
    if !negative then integer n
    else if 0 < n ∧ n ≤ 0x8000000000000000 then integer (-n)
    else decimal true n 0
  else
    let (m, places) := absorb n fraction
    decimal negative m (raised - places + exponent.getD 0)

/-! ## The double of a decimal -/

def powerOfTen (n : Nat) : Float := Float.ofScientific 1 false n

/-- Divide by ten to the `n`, in steps that are doubles. -/
def scaleDown : Nat → Float → Nat → Float
  | 0, _, _ => 0
  | steps + 1, x, n =>
    if n ≤ 308 then x / powerOfTen n
    else if x == 0 then x
    else scaleDown steps (x / powerOfTen 308) (n - 308)

def magnitude? (digits : Nat) (exponent : Int) : Option Float :=
  let x := Float.ofNat digits
  if exponent < 0 then some (scaleDown 4 x exponent.natAbs)
  else if exponent ≤ 308 then
    let y := x * powerOfTen exponent.natAbs
    if y.isInf then none else some y
  else if digits = 0 then some x
  else none

def double? (negative : Bool) (digits : Nat) (exponent : Int) : Option Float :=
  (magnitude? digits exponent).map fun x => if negative then -x else x

/-- The text of a number, when it has one. -/
def text? : Number → Option String
  | integer n => some (toString n)
  | decimal negative digits exponent => (double? negative digits exponent).map Decimal.text

end Number

end PredictiveParsing
