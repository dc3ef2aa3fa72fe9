import CoordSplit.Text.Basic

/-!
# Places in a document

A document is read along a cursor, which knows its column: columns tell the structure of a document in block
style. Between the parts of a document stand blanks, line ends and comments, which `seek` skips.
-/

set_option autoImplicit false

namespace CoordSplit.Yaml

/-- A place in a text: what follows it, and its distance from the start of its line. -/
structure Cursor where
  rest : Text
  column : Nat

namespace Cursor

/-- The place behind the next byte. -/
def step (c : Cursor) : Cursor :=
  match c.rest with
  | [] => c
  | b :: rest => ⟨rest, if b = 10 then 0 else c.column + 1⟩

/-- The place behind `n` bytes of the same line. -/
def skip (c : Cursor) (n : Nat) : Cursor := ⟨c.rest.drop n, c.column + n⟩

/-- The place behind the blanks that follow. -/
def skipBlanks (c : Cursor) : Cursor :=
  c.skip (c.rest.takeWhile fun b => b = 32 || b = 9).length

/-- Whether the next byte is `b`. -/
def at? (c : Cursor) (b : UInt8) : Bool := c.rest.head? = some b

/-- Whether a text starts with a blank or the end of a line, or is empty. -/
def spaced : Text → Bool
  | [] => true
  | b :: _ => b = 32 || b = 9 || b = 10

/-- Whether the next byte is `b`, followed by a blank or the end of the line. -/
def atMark (c : Cursor) (b : UInt8) : Bool := c.at? b && spaced c.rest.tail

/-- Whether an item of a block list starts here. -/
def atDash (c : Cursor) : Bool := c.atMark 45

/-- Whether the value of a block map starts here. -/
def atColon (c : Cursor) : Bool := c.atMark 58

/-- Whether nothing but a comment follows on the line. -/
def atLineEnd (c : Cursor) : Bool :=
  match c.skipBlanks.rest with
  | [] => true
  | b :: _ => b = 10 || b = 35

/-- Whether the start or the end of a document is marked here. -/
def atMarker (c : Cursor) : Bool :=
  c.column = 0 && (c.rest.take 3 = [45, 45, 45] || c.rest.take 3 = [46, 46, 46]) && spaced (c.rest.drop 3)

/-- The text from a place up to a later one. -/
def upTo (c d : Cursor) : Text := c.rest.take (c.rest.length - d.rest.length)

/-- Whether what stands between two places may be a key: it is on one line, and not too long. -/
def spansKey (c d : Cursor) : Bool :=
  let t := c.upTo d
  !t.contains 10 && (t.filter fun b => b < 0x80 || 0xC0 ≤ b).length ≤ 1024

end Cursor

/-- What is found when blanks, line ends and comments are skipped. -/
inductive Found where
  | content (c : Cursor)
  | marker (c : Cursor)
  | finish
  /-- A tab in the place of indentation. -/
  | misplacedTab

/-- Where the search for content is. -/
inductive SeekState where
  | lineStart
  | inLine
  | comment
  deriving DecidableEq

/-- The next content. Tabs are skipped, except, unless `tabs`, before the first content of a line. -/
def seek (tabs : Bool) : SeekState → Text → Nat → Found
  | _, [], _ => .finish
  | s, b :: rest, column =>
    if b = 10 then seek tabs .lineStart rest 0
    else if s = .comment then seek tabs .comment rest (column + 1)
    else if b = 32 then seek tabs s rest (column + 1)
    else if b = 9 then
      if s = .lineStart ∧ !tabs then .misplacedTab else seek tabs s rest (column + 1)
    else if b = 35 then seek tabs .comment rest (column + 1)
    else
      let c : Cursor := ⟨b :: rest, column⟩
      if c.atMarker then .marker c else .content c

/-- The next content in block style. -/
def Cursor.seek (c : Cursor) (s : SeekState) : Found := Yaml.seek false s c.rest c.column

/-- The next content within brackets. -/
def Cursor.seekInRow (c : Cursor) : Option Cursor :=
  match Yaml.seek true .inLine c.rest c.column with
  | .content d => some d
  | _ => none

end CoordSplit.Yaml
