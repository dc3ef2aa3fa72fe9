import CoordSplit.Text.Basic

/-!
# UTF-8

A byte string is read as a sequence of pieces: a well formed character with its code point, or a
single stray byte that starts no character. Nothing is lost: the bytes of the pieces, one after the
other, are the text (`bytes_pieces`).
-/

set_option autoImplicit false

namespace CoordSplit.Text

/-- A character of a text with the bytes that write it, or a byte that belongs to no character. -/
inductive Piece where
  | char (code : Nat) (bytes : Text)
  | stray (byte : UInt8)
  deriving DecidableEq

namespace Piece

/-- The bytes of the piece. -/
def bytes : Piece → Text
  | .char _ bs => bs
  | .stray b => [b]

end Piece

/-- Whether a byte continues a character. -/
def isTail (b : UInt8) : Bool := 0x80 ≤ b && b ≤ 0xBF

/-- Whether `b` may follow the lead byte `a`: this rules out overlong forms, surrogates and code
points above `0x10FFFF`. -/
def isSecond (a b : UInt8) : Bool :=
  if a = 0xE0 then 0xA0 ≤ b && b ≤ 0xBF
  else if a = 0xED then 0x80 ≤ b && b ≤ 0x9F
  else if a = 0xF0 then 0x90 ≤ b && b ≤ 0xBF
  else if a = 0xF4 then 0x80 ≤ b && b ≤ 0x8F
  else isTail b

/-- The six payload bits of a continuation byte. -/
def tailBits (b : UInt8) : Nat := b.toNat % 64

/-- The pieces of a text, in order. -/
def pieces : Text → List Piece
  | [] => []
  | a :: rest =>
    if a < 0x80 then .char a.toNat [a] :: pieces rest
    else match rest with
      | [] => [.stray a]
      | b :: rest₂ =>
        if (0xC2 ≤ a && a ≤ 0xDF) && isTail b then
          .char (a.toNat % 32 * 64 + tailBits b) [a, b] :: pieces rest₂
        else match rest₂ with
          | [] => .stray a :: pieces [b]
          | c :: rest₃ =>
            if (0xE0 ≤ a && a ≤ 0xEF) && isSecond a b && isTail c then
              .char (a.toNat % 16 * 4096 + tailBits b * 64 + tailBits c) [a, b, c] :: pieces rest₃
            else match rest₃ with
              | [] => .stray a :: pieces [b, c]
              | d :: rest₄ =>
                if (0xF0 ≤ a && a ≤ 0xF4) && isSecond a b && isTail c && isTail d then
                  .char (a.toNat % 8 * 262144 + tailBits b * 4096 + tailBits c * 64 + tailBits d)
                    [a, b, c, d] :: pieces rest₄
                else .stray a :: pieces (b :: c :: d :: rest₄)
termination_by t => t.length

/-- Whether a text is well formed UTF-8. -/
def isUtf8 (t : Text) : Bool :=
  (pieces t).all fun p => match p with
    | .char _ _ => true
    | .stray _ => false

/-- Whether a number is a code point that UTF-8 can write. -/
def isScalar (code : Nat) : Bool := code < 0xD800 || (0xDFFF < code && code < 0x110000)

/-- The UTF-8 bytes of a code point, and those of `U+FFFD` for a number that is none. -/
def ofCode (code : Nat) : Text :=
  String.utf8EncodeChar (Char.ofNat (if isScalar code then code else 0xFFFD))

/-- The pieces of a text have exactly its bytes. -/
theorem bytes_pieces (t : Text) : (pieces t).flatMap Piece.bytes = t := by
  fun_induction pieces t <;> simp_all [Piece.bytes, pieces]

end CoordSplit.Text
