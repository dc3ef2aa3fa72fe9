/-!
# Binary floating point formats

A finite number of a binary format is `m * 2 ^ q` for a whole `m`; the format bounds the size of `m`
and the range of `q`. Numbers are handled by their bits, so that nothing depends on the arithmetic of
the machine. `BinaryFormat.round` gives the bits of the number nearest to a quotient.
-/

set_option autoImplicit false

namespace CoordSplit

-- Powers are the built-in ones, whatever else is in scope.
attribute [local instance (2000)] instPowNat

/-- A binary interchange format. -/
structure BinaryFormat where
  /-- The number of stored fraction bits. -/
  fractionBits : Nat
  /-- The number of exponent bits. -/
  exponentBits : Nat
  deriving DecidableEq

namespace BinaryFormat

/-- Numbers of 32 bits. -/
def single : BinaryFormat := ⟨23, 8⟩

/-- Numbers of 64 bits. -/
def double : BinaryFormat := ⟨52, 11⟩

/-- The least exponent `q` of a finite number `m * 2 ^ q`. -/
def minExponent (form : BinaryFormat) : Int :=
  2 - (2 ^ (form.exponentBits - 1) : Nat) - form.fractionBits

/-- The bits of infinity. -/
def infinity (form : BinaryFormat) : Nat := (2 ^ form.exponentBits - 1) * 2 ^ form.fractionBits

/-- The sign bit. -/
def signBit (form : BinaryFormat) : Nat := 2 ^ (form.fractionBits + form.exponentBits)

/-- What the bits of a number stand for, apart from the sign. -/
inductive Magnitude where
  | nan
  | infinite
  /-- The number `m * 2 ^ q`; `even` tells whether ties round to it, and `narrow` whether the gap below
  it is half the gap above it. -/
  | finite (m : Nat) (q : Int) (even narrow : Bool)
  deriving DecidableEq

/-- Whether the sign bit is set. -/
def isNegative (form : BinaryFormat) (bits : Nat) : Bool :=
  bits.testBit (form.fractionBits + form.exponentBits)

/-- What the bits of a number stand for, apart from the sign. -/
def magnitude (form : BinaryFormat) (bits : Nat) : Magnitude :=
  let fraction := bits % 2 ^ form.fractionBits
  let biased := bits / 2 ^ form.fractionBits % 2 ^ form.exponentBits
  if biased = 2 ^ form.exponentBits - 1 then (if fraction = 0 then .infinite else .nan)
  else if biased = 0 then .finite fraction form.minExponent (fraction % 2 = 0) false
  else .finite (2 ^ form.fractionBits + fraction) (form.minExponent + biased - 1) (fraction % 2 = 0)
    (fraction = 0 && 1 < biased)

/-- The whole number nearest to a quotient; a tie goes to the even one. -/
def nearest (num den : Nat) : Nat :=
  let q := num / den
  let r := num % den
  if 2 * r < den then q
  else if den < 2 * r then q + 1
  else if q % 2 = 0 then q else q + 1

/-- The exponent of the greatest power of two that is at most a positive quotient. -/
def floorLog2 (num den : Nat) : Int :=
  let k : Int := num.log2 - den.log2
  if 0 ≤ k then (if num < den * 2 ^ k.toNat then k - 1 else k)
  else (if num * 2 ^ (-k).toNat < den then k - 1 else k)

/-- The bits of the number nearest to a quotient, ties to even; nothing if it is too large. -/
def round (form : BinaryFormat) (num den : Nat) : Option Nat :=
  if num = 0 then some 0
  else
    let q := max form.minExponent (floorLog2 num den - form.fractionBits)
    let m := if 0 ≤ q then nearest num (den * 2 ^ q.toNat) else nearest (num * 2 ^ (-q).toNat) den
    let bits := (q - form.minExponent).toNat * 2 ^ form.fractionBits + m
    if bits < form.infinity then some bits else none

end BinaryFormat

end CoordSplit
