import CoordSplit.Text.Basic

/-!
# Integer numerals

Reading of integers with an optional sign. With `Base.detect` the base is that of the spelling: `0x`,
`0o` and `0b` name bases 16, 8 and 2, a bare leading zero names base 8, and single underscores may
stand between digits and after the base mark.

A numeral is refused as soon as its value leaves the range of the word, even if what follows is no
digit; so of two faults in one numeral the first one counts.
-/

set_option autoImplicit false

namespace CoordSplit

-- Powers are the built-in ones, whatever else is in scope.
attribute [local instance (2000)] instPowNat

/-- Why a text is not an integer of the wanted width. -/
inductive NumeralError where
  | malformed
  | range
  deriving DecidableEq

namespace NumeralError

/-- The wording of the cause. -/
def message : NumeralError → Text
  | .malformed => "invalid syntax"
  | .range => "value out of range"

end NumeralError

/-- How the base of a numeral is found. -/
inductive Base where
  | fixed (base : Nat)
  | detect
  deriving DecidableEq

namespace Text

/-- The value of the digits in a base, at most `top`. Underscores are skipped if `gaps`. -/
def digitsValue (base top : Nat) (gaps : Bool) : Nat → Text → Except NumeralError Nat
  | acc, [] => .ok acc
  | acc, b :: rest =>
    if b = 95 && gaps then digitsValue base top gaps acc rest
    else match digitValue b with
      | none => .error .malformed
      | some d =>
        if base ≤ d then .error .malformed
        else if top < acc * base + d then .error .range
        else digitsValue base top gaps (acc * base + d) rest

/-- What was read last while checking where underscores stand. -/
inductive GapState where
  | start
  | digit
  | gap
  | other
  deriving DecidableEq

/-- Whether every underscore stands after a digit or a base mark and before a digit. -/
def gapsOk (hexDigits : Bool) : GapState → Text → Bool
  | s, [] => s ≠ .gap
  | s, b :: rest =>
    let c := lowerByte b
    if isDigit b || (hexDigits && 97 ≤ c && c ≤ 102) then gapsOk hexDigits .digit rest
    else if b = 95 then (if s = .digit then gapsOk hexDigits .gap rest else false)
    else if s = .gap then false
    else gapsOk hexDigits .other rest

/-- The rest of a text after a sign, if it has one. -/
def dropSign : Text → Text
  | b :: rest => if b = 43 ∨ b = 45 then rest else b :: rest
  | [] => []

/-- Whether the underscores of a signed numeral, with or without a base mark, are well placed. -/
def underscoresOk (t : Text) : Bool :=
  let u := dropSign t
  match u with
  | a :: b :: rest =>
    let c := lowerByte b
    if a = 48 ∧ (c = 98 ∨ c = 111 ∨ c = 120) then gapsOk (c = 120) .digit rest
    else gapsOk false .start u
  | _ => gapsOk false .start u

/-- The base of an unsigned numeral and its digits. -/
def splitBase (base : Base) (t : Text) : Nat × Text :=
  match base with
  | .fixed n => (n, t)
  | .detect =>
    match t with
    | a :: rest =>
      if a = 48 then
        match rest with
        | b :: c :: tail =>
          let m := lowerByte b
          if m = 98 then (2, c :: tail)
          else if m = 111 then (8, c :: tail)
          else if m = 120 then (16, c :: tail)
          else (8, rest)
        | _ => (8, rest)
      else (10, t)
    | [] => (10, t)

/-- The value of an unsigned numeral, at most `top`. -/
def natValue (base : Base) (top : Nat) (t : Text) : Except NumeralError Nat :=
  if t.isEmpty then .error .malformed
  else
    let (b, digits) := splitBase base t
    match digitsValue b top (base = .detect) 0 digits with
    | .error e => .error e
    | .ok n =>
      if base = .detect && t.contains 95 && !underscoresOk t then .error .malformed
      else .ok n

/-- The value of a signed numeral of a word of `bits` bits. -/
def intValue (base : Base) (bits : Nat) (t : Text) : Except NumeralError Int :=
  if t.isEmpty then .error .malformed
  else
    let negative := t.head? = some 45
    match natValue base (2 ^ bits - 1) (dropSign t) with
    | .error e => .error e
    | .ok n =>
      if !negative && 2 ^ (bits - 1) ≤ n then .error .range
      else if negative && 2 ^ (bits - 1) < n then .error .range
      else .ok (if negative then -(n : Int) else n)

end Text

end CoordSplit
