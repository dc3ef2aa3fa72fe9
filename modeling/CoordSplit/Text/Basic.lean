/-!
# Byte strings

Names, descriptors, file contents and messages are strings of bytes. Most of them hold UTF-8, but
nothing here depends on it: a class file may name a method by any bytes at all.

The module has the literals (`Text.ofString`), the numerals (`Text.ofNat`, `Text.ofInt`, `Text.hex`)
and the cutting and joining that the rest of the library uses.
-/

set_option autoImplicit false

namespace CoordSplit

/-- A string of bytes. -/
abbrev Text := List UInt8

namespace Text

/-- The UTF-8 bytes of a string. -/
def ofString (s : String) : Text := s.toByteArray.data.toList

instance : Coe String Text := ⟨ofString⟩

/-- The byte that writes a digit below 36, in lower case. -/
def digit (d : Nat) : UInt8 :=
  if d < 10 then (48 + d).toUInt8 else (87 + d).toUInt8

/-- The numeral of `n` in a base from 2 to 36, most significant digit first and no leading zero. -/
def ofNatBase (base n : Nat) : Text :=
  if _h : n < base ∨ base < 2 then [digit n]
  else ofNatBase base (n / base) ++ [digit (n % base)]
termination_by n
decreasing_by exact Nat.div_lt_self (by omega) (by omega)

/-- The decimal numeral of a natural number. -/
def ofNat (n : Nat) : Text := ofNatBase 10 n

/-- The decimal numeral of an integer, with a minus sign if it is negative. -/
def ofInt (i : Int) : Text :=
  if i < 0 then 45 :: ofNat i.natAbs else ofNat i.natAbs

/-- The hexadecimal numeral of a natural number, in lower case. -/
def hex (n : Nat) : Text := ofNatBase 16 n

/-- The hexadecimal numeral of `n`, padded with zeros to at least `width` digits. -/
def hexPadded (width n : Nat) : Text :=
  let digits := hex n
  List.replicate (width - digits.length) 48 ++ digits

/-- The word `true` or `false`. -/
def ofBool (b : Bool) : Text := if b then ofString "true" else ofString "false"

/-- The parts one after the other. -/
def concat (parts : List Text) : Text := parts.flatten

/-- The parts one after the other, with `sep` between neighbours. -/
def join (sep : Text) : List Text → Text
  | [] => []
  | [t] => t
  | t :: u :: rest => t ++ sep ++ join sep (u :: rest)

/-- The text before and after the first `sep`, if there is one. -/
def cut (sep : UInt8) : Text → Option (Text × Text)
  | [] => none
  | b :: rest =>
    if b = sep then some ([], rest)
    else (cut sep rest).map fun p => (b :: p.1, p.2)

/-- What follows the first `sep` is shorter than the text. -/
theorem cut_length {sep : UInt8} {t a b : Text} (h : cut sep t = some (a, b)) :
    b.length < t.length := by
  induction t generalizing a with
  | nil => simp [cut] at h
  | cons c rest ih =>
    rw [cut] at h
    split at h
    · simp only [Option.some.injEq, Prod.mk.injEq] at h
      simp [← h.2]
    · obtain ⟨⟨a', b'⟩, hcut, heq⟩ := Option.map_eq_some_iff.1 h
      simp only [Prod.mk.injEq] at heq
      have := ih (heq.2 ▸ hcut)
      simp only [List.length_cons]
      omega

/-- Whether `t` starts with `start`. -/
def startsWith (t start : Text) : Bool := start.isPrefixOf t

/-- Whether `t` ends with `tail`. -/
def endsWith (t tail : Text) : Bool := tail.isSuffixOf t

/-- The lower case form of an ASCII letter; any other byte is kept. -/
def lowerByte (b : UInt8) : UInt8 := if 65 ≤ b ∧ b ≤ 90 then b + 32 else b

/-- The text with its ASCII letters in lower case. -/
def lower (t : Text) : Text := t.map lowerByte

/-- Whether a byte is an ASCII decimal digit. -/
def isDigit (b : UInt8) : Bool := 48 ≤ b && b ≤ 57

/-- The value of a digit in bases up to 36, letters in either case. -/
def digitValue (b : UInt8) : Option Nat :=
  let c := lowerByte b
  if isDigit b then some (b.toNat - 48)
  else if 97 ≤ c ∧ c ≤ 122 then some (c.toNat - 87)
  else none

/-- The bytes that a string of hexadecimal digit pairs stands for. -/
def ofHexPairs : Text → Option Text
  | [] => some []
  | [_] => none
  | a :: b :: rest => do
    let x ← digitValue a
    let y ← digitValue b
    if x < 16 ∧ y < 16 then
      let tail ← ofHexPairs rest
      some ((16 * x + y).toUInt8 :: tail)
    else none

/-- Every byte as two hexadecimal digits. -/
def toHexPairs (t : Text) : Text :=
  t.flatMap fun b => [digit (b.toNat / 16), digit (b.toNat % 16)]

/-- The extension of a file name: what follows the last dot of its last path element, with the dot,
or nothing. -/
def fileExtension (name : Text) : Text :=
  let tail := name.reverse.takeWhile fun b => b ≠ 47
  let ext := tail.takeWhile fun b => b ≠ 46
  if ext.length < tail.length then 46 :: ext.reverse else []

/-- Byte-wise order. -/
def le : Text → Text → Bool
  | [], _ => true
  | _ :: _, [] => false
  | a :: s, b :: t => if a < b then true else if b < a then false else le s t

end Text

end CoordSplit
