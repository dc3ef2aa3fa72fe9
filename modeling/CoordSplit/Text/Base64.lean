import CoordSplit.Text.Basic

/-!
# Bytes in base 64

Three bytes are written as four letters, and the last group is filled up with `=`.
-/

set_option autoImplicit false

namespace CoordSplit.Text

/-- The letter for a value below 64. -/
def base64Letter (n : Nat) : UInt8 :=
  if n < 26 then UInt8.ofNat (65 + n)
  else if n < 52 then UInt8.ofNat (97 + (n - 26))
  else if n < 62 then UInt8.ofNat (48 + (n - 52))
  else if n = 62 then 43
  else 47

/-- The value of a letter. -/
def base64Value (b : UInt8) : Option Nat :=
  if 65 ≤ b ∧ b ≤ 90 then some (b.toNat - 65)
  else if 97 ≤ b ∧ b ≤ 122 then some (b.toNat - 97 + 26)
  else if isDigit b then some (b.toNat - 48 + 52)
  else if b = 43 then some 62
  else if b = 47 then some 63
  else none

/-- The bytes in base 64. -/
def toBase64 : Text → Text
  | [] => []
  | [a] => [base64Letter (a.toNat / 4), base64Letter (a.toNat % 4 * 16), 61, 61]
  | [a, b] => [base64Letter (a.toNat / 4), base64Letter (a.toNat % 4 * 16 + b.toNat / 16),
      base64Letter (b.toNat % 16 * 4), 61]
  | a :: b :: c :: rest =>
    base64Letter (a.toNat / 4) :: base64Letter (a.toNat % 4 * 16 + b.toNat / 16) ::
      base64Letter (b.toNat % 16 * 4 + c.toNat / 64) :: base64Letter (c.toNat % 64) :: toBase64 rest

/-- The bytes that groups of four letters write. -/
def ofBase64Groups : Text → Option Text
  | [] => some []
  | a :: b :: c :: d :: rest => do
    let x ← base64Value a
    let y ← base64Value b
    let first := UInt8.ofNat (x * 4 + y / 16)
    if c = 61 then
      if d = 61 ∧ rest.isEmpty then some [first] else none
    else
      let z ← base64Value c
      let second := UInt8.ofNat (y % 16 * 16 + z / 4)
      if d = 61 then
        if rest.isEmpty then some [first, second] else none
      else
        let w ← base64Value d
        let tail ← ofBase64Groups rest
        return first :: second :: UInt8.ofNat (z % 4 * 64 + w) :: tail
  | _ => none

/-- The bytes that a text in base 64 writes; line ends in it do not count. -/
def ofBase64 (t : Text) : Option Text := ofBase64Groups (t.filter fun b => b ≠ 10 && b ≠ 13)

end CoordSplit.Text
