import CoordSplit.Text.Utf8
import CoordSplit.Text.Printable

/-!
# Quoted text

A text is quoted between double quotes. Printable characters stand for themselves; the quote and the
backslash are escaped; the control characters with a letter of their own are written by that letter;
any other character by its code point, and a byte outside UTF-8 by two hexadecimal digits.

`unquote` reads what `quote` writes, and also the octal escapes that `quote` never uses.
-/

set_option autoImplicit false

namespace CoordSplit.Text

/-- The letter that follows the backslash in the short escape of a control character. -/
def escapeLetter (code : Nat) : Option UInt8 :=
  match code with
  | 7 => some 97
  | 8 => some 98
  | 12 => some 102
  | 10 => some 110
  | 13 => some 114
  | 9 => some 116
  | 11 => some 118
  | _ => none

/-- The control character of an escape letter: the inverse of `escapeLetter`. -/
def escapeCode (letter : UInt8) : Option UInt8 :=
  [(97, 7), (98, 8), (102, 12), (110, 10), (114, 13), (116, 9), (118, 11)].lookup letter

/-- A character inside quotes of the kind `delim`. -/
def quoteCode (delim : UInt8) (code : Nat) : Text :=
  if code = delim.toNat ∨ code = 92 then [92, code.toUInt8]
  else if isPrintable code then ofCode code
  else match escapeLetter code with
    | some letter => [92, letter]
    | none =>
      if code < 32 ∨ code = 127 then 92 :: 120 :: hexPadded 2 code
      else if code < 0x10000 then 92 :: 117 :: hexPadded 4 code
      else 92 :: 85 :: hexPadded 8 code

/-- A piece of text inside double quotes. -/
def quotePiece : Piece → Text
  | .char code _ => quoteCode 34 code
  | .stray b => 92 :: 120 :: hexPadded 2 b.toNat

/-- The text between double quotes. -/
def quote (t : Text) : Text := 34 :: ((pieces t).flatMap quotePiece ++ [34])

/-- A byte, read as the code point of that number, between single quotes. -/
def quoteByte (b : UInt8) : Text := 39 :: (quoteCode 39 b.toNat ++ [39])

/-- The value of the first `n` bytes as hexadecimal digits, and the rest. -/
def takeHex : Nat → Nat → Text → Option (Nat × Text)
  | 0, acc, t => some (acc, t)
  | _ + 1, _, [] => none
  | n + 1, acc, b :: rest =>
    match digitValue b with
    | some d => if d < 16 then takeHex n (16 * acc + d) rest else none
    | none => none

/-- The character written by an escape whose letter is `c`, and the text after it. -/
def unescape (c : UInt8) (rest : Text) : Option (Text × Text) :=
  match escapeCode c with
  | some b => some ([b], rest)
  | none =>
    if c = 92 ∨ c = 34 then some ([c], rest)
    else if c = 120 then (takeHex 2 0 rest).map fun p => ([p.1.toUInt8], p.2)
    else if c = 117 ∨ c = 85 then
      match takeHex (if c = 117 then 4 else 8) 0 rest with
      | some (code, tail) => if isScalar code then some (ofCode code, tail) else none
      | none => none
    else if 48 ≤ c ∧ c ≤ 55 then
      match rest with
      | d :: e :: tail =>
        if (48 ≤ d ∧ d ≤ 55) ∧ (48 ≤ e ∧ e ≤ 55) then
          let v := (c.toNat - 48) * 64 + (d.toNat - 48) * 8 + (e.toNat - 48)
          if v ≤ 255 then some ([v.toUInt8], tail) else none
        else none
      | _ => none
    else none

/-- The bytes that a stray byte of quoted text stands for: those of `U+FFFD`. -/
def replacement : Text := [0xEF, 0xBF, 0xBD]

/-- The body of a quoted text up to its closing quote, which must end the text. The first argument
bounds the number of characters read. -/
def unquoteBody : Nat → Text → Option Text
  | 0, _ => none
  | _ + 1, [] => none
  | fuel + 1, b :: rest =>
    if b = 34 then (if rest.isEmpty then some [] else none)
    else if b = 10 then none
    else if b = 92 then
      match rest with
      | [] => none
      | c :: tail =>
        match unescape c tail with
        | some (bytes, tail') => (unquoteBody fuel tail').map (bytes ++ ·)
        | none => none
    else if b < 0x80 then (unquoteBody fuel rest).map (b :: ·)
    else
      match pieces (b :: rest.take 3) with
      | .char _ bytes :: _ =>
        (unquoteBody fuel (rest.drop (bytes.length - 1))).map (bytes ++ ·)
      | _ => (unquoteBody fuel rest).map (replacement ++ ·)

/-- The text that a quoted text stands for, or nothing if it is not well formed. -/
def unquote (t : Text) : Option Text :=
  match t with
  | b :: rest => if b = 34 then unquoteBody t.length rest else none
  | [] => none

end CoordSplit.Text
