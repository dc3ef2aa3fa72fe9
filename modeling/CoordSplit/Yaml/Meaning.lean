import CoordSplit.Number.FloatText
import CoordSplit.Text.Numeral

/-!
# The meaning of plain scalars

A scalar that is written without quotes may stand for nothing, a truth value, a number or a date;
otherwise it stands for its text. The same rules say when a text has to be quoted.
-/

set_option autoImplicit false

namespace CoordSplit.Yaml

-- Powers are the built-in ones, whatever else is in scope.
attribute [local instance (2000)] instPowNat

/-- What a scalar stands for. -/
inductive Meaning where
  | null
  | truth (b : Bool)
  /-- A whole number of at most 64 bits, with or without sign. -/
  | int (i : Int)
  /-- A double by its bits. -/
  | float (bits : Nat)
  | date
  | text
  deriving DecidableEq

/-- The words with a meaning of their own. -/
def words : List (String × Meaning) :=
  [("true", .truth true), ("True", .truth true), ("TRUE", .truth true),
   ("false", .truth false), ("False", .truth false), ("FALSE", .truth false),
   ("", .null), ("~", .null), ("null", .null), ("Null", .null), ("NULL", .null)] ++
  [".nan", ".NaN", ".NAN"].map (fun w => (w, .float BinaryFormat.double.nanBits)) ++
  [".inf", ".Inf", ".INF", "+.inf", "+.Inf", "+.INF"].map
    (fun w => (w, .float BinaryFormat.double.infinity)) ++
  ["-.inf", "-.Inf", "-.INF"].map (fun w =>
    (w, .float (BinaryFormat.double.infinity + BinaryFormat.double.signBit)))

/-- The text behind the digits at its start, of which there has to be one. -/
def dropDigits (t : Text) : Option Text :=
  let rest := t.dropWhile Text.isDigit
  if rest.length < t.length then some rest else none

/-- Whether a text is empty or an exponent. -/
def isExponentTail : Text → Bool
  | [] => true
  | b :: rest => (b = 101 || b = 69) && dropDigits (Text.dropSign rest) = some []

/-- Whether a text is written like a decimal number: digits with at most one point, and an exponent. -/
def isDecimal (t : Text) : Bool :=
  match Text.dropSign t with
  | 46 :: rest => ((dropDigits rest).map isExponentTail).getD false
  | u =>
    match dropDigits u with
    | none => false
    | some (46 :: rest) => isExponentTail (rest.dropWhile Text.isDigit)
    | some rest => isExponentTail rest

/-- A number of one or two digits at the start of a text, and what follows. -/
def takeShort : Text → Option (Nat × Text)
  | a :: b :: rest =>
    if !Text.isDigit a then none
    else if Text.isDigit b then some ((a.toNat - 48) * 10 + (b.toNat - 48), rest)
    else some (a.toNat - 48, b :: rest)
  | [a] => if Text.isDigit a then some (a.toNat - 48, []) else none
  | [] => none

/-- The number of days of a month. -/
def daysIn (year month : Nat) : Nat :=
  if month = 2 then
    if year % 4 = 0 ∧ (year % 100 ≠ 0 ∨ year % 400 = 0) then 29 else 28
  else if month = 4 ∨ month = 6 ∨ month = 9 ∨ month = 11 then 30
  else 31

/-- What follows a date at the start of a text. The day is checked last, so what follows comes first. -/
def dropDate (t : Text) : Option Text := do
  let year := (t.take 4).foldl (fun n b => n * 10 + (b.toNat - 48)) 0
  if !((t.take 4).all Text.isDigit) ∨ t.length < 5 then none
  else match t.drop 4 with
    | 45 :: rest => do
      let (month, rest) ← takeShort rest
      match rest with
      | 45 :: rest => do
        let (day, rest) ← takeShort rest
        if 1 ≤ month ∧ month ≤ 12 ∧ 1 ≤ day ∧ day ≤ daysIn year month then some rest else none
      | _ => none
    | _ => none

/-- What follows a time of day, with an optional fraction of a second. -/
def dropTime (t : Text) : Option Text := do
  let (hour, rest) ← takeShort t
  match rest with
  | 58 :: rest => do
    let (minute, rest) ← takeShort rest
    match rest with
    | 58 :: rest => do
      let (second, rest) ← takeShort rest
      if hour < 24 ∧ minute < 60 ∧ second < 60 then
        match rest with
        | p :: d :: more =>
          if (p = 46 ∨ p = 44) ∧ Text.isDigit d then some (more.dropWhile Text.isDigit)
          else some rest
        | _ => some rest
      else none
    | _ => none
  | _ => none

/-- Whether a text is a time zone: `Z`, or an offset in hours and minutes. -/
def isZone : Text → Bool
  | [z] => z = 90
  | [s, a, b, c, d, e] =>
    (s = 43 || s = 45) && c = 58 && [a, b, d, e].all Text.isDigit &&
      (a.toNat - 48) * 10 + (b.toNat - 48) ≤ 24 && (d.toNat - 48) * 10 + (e.toNat - 48) < 60
  | _ => false

/-- Whether a text is a date, alone or with a time. -/
def isDate (t : Text) : Bool :=
  match dropDate t with
  | none => false
  | some [] => true
  | some (b :: rest) =>
    match dropTime rest with
    | none => false
    | some tail => ((b = 84 || b = 116) && isZone tail) || (b = 32 && tail.isEmpty)

/-- The whole number of digits behind a base mark that the usual spelling of numbers does not have: the
sign stands behind the mark. -/
def markedInt? (mark : String) (base : Nat) (t : Text) : Option Int :=
  let read (digits : Text) : Option Int :=
    match Text.intValue (.fixed base) 64 digits with
    | .ok i => some i
    | .error _ => none
  if Text.startsWith t mark then read (t.drop mark.length)
  else if Text.startsWith t ("-" ++ mark) then read (45 :: t.drop (mark.length + 1))
  else none

/-- The meaning of a text that starts like a number. -/
def numberMeaning (t : Text) : Meaning :=
  if isDate t then .date
  else
    let plain := t.filter (· ≠ 95)
    match Text.intValue .detect 64 plain, Text.natValue .detect (2 ^ (64 : Nat) - 1) plain with
    | .ok i, _ => .int i
    | _, .ok n => .int n
    | _, _ =>
      match if isDecimal plain then BinaryFormat.double.read? plain else none with
      | some bits => .float bits
      | none =>
        match (markedInt? "0b" 2 plain).or (markedInt? "0o" 8 plain) with
        | some i => .int i
        | none => .text

/-- What a plain scalar stands for. -/
def meaning (t : Text) : Meaning :=
  match (words.map fun w => (Text.ofString w.1, w.2)).lookup t with
  | some m => m
  | none =>
    match t with
    | [] => .null
    | b :: _ =>
      if b = 46 then
        match BinaryFormat.double.read? t with
        | some bits => .float bits
        | none => .text
      else if Text.isDigit b ∨ b = 43 ∨ b = 45 then numberMeaning t
      else .text

/-- The words that once were truth values. -/
def oldTruths : List String :=
  ["y", "Y", "yes", "Yes", "YES", "on", "On", "ON", "n", "N", "no", "No", "NO", "off", "Off", "OFF"]

/-- Whether a text ends in groups of base 60, each behind a colon, and a fraction. -/
def isSixtyTail : Nat → Text → Bool
  | 0, _ => false
  | fuel + 1, t =>
    match t with
    | [] => true
    | 46 :: rest => rest.all fun b => Text.isDigit b || b = 95
    | 58 :: rest =>
      match rest with
      | a :: b :: more =>
        if Text.isDigit a && a ≤ 53 && Text.isDigit b then isSixtyTail fuel more
        else Text.isDigit a && isSixtyTail fuel (b :: more)
      | [a] => Text.isDigit a
      | [] => false
    | _ => false

/-- Whether a text once was a number in base 60. -/
def isSixty (t : Text) : Bool :=
  match Text.dropSign t with
  | a :: rest =>
    let tail := rest.dropWhile fun b => Text.isDigit b || b = 95
    Text.isDigit a && tail.head? = some 58 && isSixtyTail (tail.length + 1) tail
  | [] => false

/-- Whether a text, written without quotes, is read as that text everywhere. -/
def standsForItself (t : Text) : Bool :=
  meaning t = .text && !isSixty t && !(oldTruths.map Text.ofString).contains t

end CoordSplit.Yaml
