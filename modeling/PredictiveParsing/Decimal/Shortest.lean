/-!
# Shortest decimals

A double stands for every real that rounds to it. Its text has the fewest digits of any decimal
among those reals, and of decimals with that many digits the nearest one, an even last digit winning
a tie. All comparisons are exact, over natural numbers.
-/

namespace PredictiveParsing.Decimal

def twoTo (n : Nat) : Nat := Nat.pow 2 n

def tenTo (n : Nat) : Nat := Nat.pow 10 n

/-- The finite non-negative double `m * 2 ^ q`. -/
structure Binary where
  m : Nat
  q : Int
  /-- The gap to the double below is half the gap to the double above. -/
  narrowBelow : Bool
  deriving DecidableEq, Repr

def Binary.ofBits (bits : UInt64) : Binary :=
  let e := ((bits >>> 52) &&& 0x7FF).toNat
  let f := (bits &&& 0xFFFFFFFFFFFFF).toNat
  if e = 0 then ⟨f, -1074, false⟩ else ⟨0x10000000000000 + f, (e : Int) - 1075, f = 0 ∧ 1 < e⟩

/-- The decimal `digits * 10 ^ exponent`. -/
structure Scaled where
  digits : Nat
  exponent : Int
  deriving DecidableEq, Repr

/-- `a * 10 ^ i` against `n * 2 ^ j`. -/
def compareScaled (a : Nat) (i : Int) (n : Nat) (j : Int) : Ordering :=
  compare (a * tenTo i.toNat * twoTo (-j).toNat) (n * twoTo j.toNat * tenTo (-i).toNat)

/-- `d` is among the reals that round to `x`; the ends belong to them when `m` is even. -/
def Binary.readsBack (x : Binary) (d : Scaled) : Bool :=
  let low := if x.narrowBelow then 4 * x.m - 1 else 4 * x.m - 2
  let below := compareScaled d.digits d.exponent low (x.q - 2)
  let above := compareScaled d.digits d.exponent (4 * x.m + 2) (x.q - 2)
  let ends := x.m % 2 == 0
  (below == .gt || ends && below == .eq) && (above == .lt || ends && above == .eq)

/-- The least `k` with `x < 10 ^ k`, for the doubles that there are. -/
def Binary.scale (x : Binary) : Int :=
  (((List.range 640).map fun i : Nat => (i : Int) - 330).find? fun k =>
    compareScaled 1 k x.m x.q == .gt).getD 310

/-- Of the two neighbours of `x` among the multiples of `10 ^ exponent`, the nearer that reads back. -/
def Binary.onGrid (x : Binary) (exponent : Int) : Option Scaled :=
  let num := x.m * twoTo x.q.toNat * tenTo (-exponent).toNat
  let den := twoTo (-x.q).toNat * tenTo exponent.toNat
  let n := num / den
  let lower : Scaled := ⟨n, exponent⟩
  let upper : Scaled := ⟨n + 1, exponent⟩
  match x.readsBack lower, x.readsBack upper with
  | false, false => none
  | true, false => some lower
  | false, true => some upper
  | true, true =>
    match compare (2 * (num % den)) den with
    | .lt => some lower
    | .gt => some upper
    | .eq => some (if n % 2 = 0 then lower else upper)

def Binary.shortest (x : Binary) : Scaled :=
  ((List.range 17).findSome? fun n => x.onGrid (x.scale - (n + 1 : Nat))).getD
    ⟨x.m * twoTo x.q.toNat * Nat.pow 5 (-x.q).toNat, min x.q 0⟩

/-- The digits without the zeros at their end. -/
def dropZeros : Nat → List Char → List Char
  | 0, cs => cs
  | n + 1, cs => if cs.getLast? = some '0' then dropZeros n cs.dropLast else cs

def zeros (n : Nat) : String := String.ofList (List.replicate n '0')

/-- Digits with the exponent of the first one. From `1e-5` up to below `1e16` a text is written
without an exponent and with a digit on either side of the point. -/
def layOut (digits : List Char) (e : Int) : String :=
  let n : Int := digits.length
  if e < -5 ∨ 15 < e then
    let point := if digits.length = 1 then "" else "."
    let sign := if e < 0 then "-" else "+"
    String.ofList (digits.take 1) ++ point ++ String.ofList (digits.drop 1) ++ "e" ++ sign ++
      toString e.natAbs
  else if e < 0 then "0." ++ zeros (-e - 1).toNat ++ String.ofList digits
  else if n - 1 ≤ e then String.ofList digits ++ zeros (e - (n - 1)).toNat ++ ".0"
  else
    let k := (e + 1).toNat
    String.ofList (digits.take k) ++ "." ++ String.ofList (digits.drop k)

/-- The text of a finite double. -/
def text (x : Float) : String :=
  let bits := x.toBits
  let sign := if bits >>> 63 = 0 then "" else "-"
  let b := Binary.ofBits bits
  if b.m = 0 then sign ++ "0.0"
  else
    let d := b.shortest
    let all := Nat.toDigits 10 d.digits
    sign ++ layOut (dropZeros all.length all) (d.exponent + all.length - 1)

end PredictiveParsing.Decimal
