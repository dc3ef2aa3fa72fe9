import CoordSplit.Number.Shortest
import CoordSplit.Text.Numeral

/-!
# The text of floating point numbers

Numbers are written with their shortest digits, positionally while the exponent of the first digit is
from -4 to 5 and with an exponent of at least two digits otherwise. They are read from decimal and
hexadecimal notation, rounded to the nearest number of the format; a number that is too large is
refused.
-/

set_option autoImplicit false

namespace CoordSplit

-- Powers are the built-in ones, whatever else is in scope.
attribute [local instance (2000)] instPowNat

namespace Decimal

/-- Digits as text. -/
def digitText (ds : List Nat) : Text := ds.map Text.digit

/-- The decimal with an exponent: one digit, the others behind a point, `e`, a sign, two digits. -/
def scientific (d : Decimal) : Text :=
  let e := d.point - 1
  let mantissa := match d.digits with
    | [] => [48]
    | [a] => [Text.digit a]
    | a :: rest => Text.digit a :: 46 :: digitText rest
  let exponent := Text.ofNat e.natAbs
  let mark : Text := if e < 0 then "e-" else "e+"
  mantissa ++ mark ++ List.replicate (2 - exponent.length) 48 ++ exponent

/-- The decimal without an exponent. -/
def positional (d : Decimal) : Text :=
  let whole := d.digits.take d.point.toNat
  let fraction := List.replicate (-d.point).toNat 0 ++ d.digits.drop d.point.toNat
  (if d.point ≤ 0 then [48]
    else digitText whole ++ List.replicate (d.point.toNat - whole.length) 48) ++
  (if d.digits.length ≤ d.point.toNat then [] else 46 :: digitText fraction)

/-- The decimal, with an exponent if its first digit is far from the point. -/
def render (d : Decimal) : Text :=
  if d.digits.isEmpty then [48]
  else if d.point - 1 < -4 ∨ 6 ≤ d.point - 1 then d.scientific
  else d.positional

end Decimal

namespace BinaryFormat

/-- The shortest text of the number with the given bits. -/
def render (form : BinaryFormat) (bits : Nat) : Text :=
  match form.magnitude bits with
  | .nan => "NaN"
  | .infinite => if form.isNegative bits then "-Inf" else "+Inf"
  | .finite m q even narrow =>
    (if form.isNegative bits then [45] else []) ++ (Decimal.shortest m q even narrow).render

/-- The bits of the number that `nan` reads as. -/
def nanBits (form : BinaryFormat) : Nat :=
  let quiet := form.infinity + 2 ^ (form.fractionBits - 1)
  if form = .double then quiet + 1 else quiet

/-- The digits of a number in positional notation. -/
structure Mantissa where
  value : Nat
  /-- How many digits stand behind the point. -/
  places : Nat
  sawDigit : Bool
  sawPoint : Bool
  rest : Text

/-- Reads digits with at most one point among them, and underscores. -/
def readMantissa (hex : Bool) : Mantissa → Text → Mantissa
  | m, [] => { m with rest := [] }
  | m, b :: rest =>
    if b = 95 then readMantissa hex m rest
    else if b = 46 then
      if m.sawPoint then { m with rest := b :: rest }
      else readMantissa hex { m with sawPoint := true } rest
    else match Text.digitValue b with
      | some d =>
        if d < 10 ∨ (hex ∧ d < 16) then
          readMantissa hex { m with
            value := m.value * (if hex then 16 else 10) + d
            places := if m.sawPoint then m.places + 1 else m.places
            sawDigit := true } rest
        else { m with rest := b :: rest }
      | none => { m with rest := b :: rest }

/-- The digits of an exponent, underscores among them, and what follows. Digits are ignored once the
value has passed 10000: such a number is zero or too large anyway. -/
def readExponent : Nat → Text → Nat × Text
  | acc, [] => (acc, [])
  | acc, b :: rest =>
    if b = 95 then readExponent acc rest
    else if Text.isDigit b then
      readExponent (if acc < 10000 then acc * 10 + (b.toNat - 48) else acc) rest
    else (acc, b :: rest)

/-- The exponent after its mark, and what follows. -/
def exponent? (t : Text) : Option (Int × Text) :=
  match Text.dropSign t with
  | b :: rest =>
    if Text.isDigit b then
      let (e, tail) := readExponent 0 (b :: rest)
      some (if t.head? = some 45 then -(e : Int) else e, tail)
    else none
  | [] => none

/-- The bits of `value * base ^ exponent`, where the base is 2 or 10. -/
def ofScaled (form : BinaryFormat) (base value : Nat) (exponent : Int) : Option Nat :=
  let magnitude : Int := (if base = 2 then value.log2 else (Text.ofNat value).length) + exponent
  if value = 0 ∨ magnitude < -5000 then some 0
  else if 5000 < magnitude then none
  else if 0 ≤ exponent then form.round (value * base ^ exponent.toNat) 1
  else form.round value (base ^ (-exponent).toNat)

/-- The bits of an unsigned number whose digits are decimal or hexadecimal. -/
def readDigits (form : BinaryFormat) (hex : Bool) (t : Text) : Option Nat :=
  let m := readMantissa hex ⟨0, 0, false, false, []⟩ t
  if !m.sawDigit then none
  else match m.rest with
    | [] => if hex then none else form.ofScaled 10 m.value (-m.places)
    | b :: rest =>
      if Text.lowerByte b = (if hex then 112 else 101) then
        match exponent? rest with
        | some (e, []) =>
          if hex then form.ofScaled 2 m.value (e - 4 * m.places)
          else form.ofScaled 10 m.value (e - m.places)
        | _ => none
      else none

/-- The bits of an unsigned number in decimal or hexadecimal notation. -/
def readUnsigned (form : BinaryFormat) (t : Text) : Option Nat :=
  let hexDigits? := match t with
    | a :: b :: c :: rest => if a = 48 ∧ Text.lowerByte b = 120 then some (c :: rest) else none
    | _ => none
  form.readDigits hexDigits?.isSome (hexDigits?.getD t)

/-- The bits of the number that a text writes; nothing if the text is not a number or the number is too
large. -/
def read? (form : BinaryFormat) (t : Text) : Option Nat :=
  let sign := if t.head? = some 45 then form.signBit else 0
  let body := Text.dropSign t
  let word := Text.lower body
  if word = ("inf" : Text) ∨ word = ("infinity" : Text) then some (sign + form.infinity)
  else if Text.lower t = ("nan" : Text) then some form.nanBits
  else if t.contains 95 && !Text.underscoresOk t then none
  else (form.readUnsigned body).map (sign + ·)

end BinaryFormat

end CoordSplit
