/-!
# Documents

A document is a list of characters. Where its bytes are no well-formed UTF-8, each byte that begins
no character stands as `none`, and reading goes on with the byte after it.
-/

namespace PredictiveParsing

abbrev Doc := List (Option Char)

namespace Doc

def isTail (b : UInt8) : Bool := 0x80 ≤ b && b ≤ 0xBF

/-- `a b` is a character of two bytes. -/
def isTwo (a b : UInt8) : Bool := 0xC2 ≤ a && a ≤ 0xDF && isTail b

/-- `a b c` is a character of three bytes: not one that fits in two, and no surrogate. -/
def isThree (a b c : UInt8) : Bool :=
  0xE0 ≤ a && a ≤ 0xEF && isTail b && isTail c && !(a == 0xE0 && b < 0xA0) && !(a == 0xED && 0xA0 ≤ b)

/-- `a b c d` is a character of four bytes: not one that fits in three, and at most U+10FFFF. -/
def isFour (a b c d : UInt8) : Bool :=
  0xF0 ≤ a && a ≤ 0xF4 && isTail b && isTail c && isTail d && !(a == 0xF0 && b < 0x90) &&
    !(a == 0xF4 && 0x90 ≤ b)

/-- The character of a lead byte's payload and the payloads of its tail bytes. -/
def assemble (lead : Nat) (tails : List UInt8) : Char :=
  Char.ofNat (tails.foldl (fun n b => n * 64 + (b.toNat - 0x80)) lead)

/-- The character that starts with `a` and goes on in `s`, and how many bytes of `s` it takes. -/
def leading (a : UInt8) (s : List UInt8) : Option (Char × Nat) :=
  if a < 0x80 then some (Char.ofNat a.toNat, 0)
  else
    match s with
    | [] => none
    | b :: s =>
      if isTwo a b then some (assemble (a.toNat - 0xC0) [b], 1)
      else
        match s with
        | [] => none
        | c :: s =>
          if isThree a b c then some (assemble (a.toNat - 0xE0) [b, c], 2)
          else
            match s with
            | [] => none
            | d :: _ =>
              if isFour a b c d then some (assemble (a.toNat - 0xF0) [b, c, d], 3) else none

/-- The characters of the bytes after the first `taken`, which belong to a character in `acc`. -/
def decode (acc : Doc) : Nat → List UInt8 → Doc
  | _, [] => acc.reverse
  | taken + 1, _ :: s => decode acc taken s
  | 0, a :: s =>
    match leading a s with
    | some (c, tails) => decode (some c :: acc) tails s
    | none => decode (none :: acc) 0 s

def ofBytes (bytes : List UInt8) : Doc := decode [] 0 bytes

def ofString (s : String) : Doc := s.toList.map some

end Doc

end PredictiveParsing
