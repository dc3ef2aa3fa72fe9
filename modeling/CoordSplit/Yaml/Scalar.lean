import CoordSplit.Text.Utf8
import CoordSplit.Yaml.Cursor
import CoordSplit.Yaml.Printer

/-!
# Reading scalars

A scalar is plain, quoted, or a block of lines. Plain and quoted scalars may go over several lines, which are
folded: a single line end becomes a blank, and of several ones the first is dropped. The lines of a block are
kept, or folded in the same way.

Every reader gives the text and the place behind it. Behind a plain scalar or a block that place is where its
last line ends.
-/

set_option autoImplicit false

namespace CoordSplit.Yaml

/-- Whether a byte ends a plain scalar within brackets. -/
def isRowMark (b : UInt8) : Bool := b = 44 || b = 91 || b = 93 || b = 123 || b = 125 || b = 63

/-- What joins two lines with `n` line ends between them. -/
def joinLines (n : Nat) : Text := if n ≤ 1 then [32] else List.replicate (n - 1) 10

/-! ## Plain scalars -/

/-- The part of a plain scalar on one line. `read` holds it in reverse, and `blanks` the blanks behind it. -/
def plainLine (inRow : Bool) : Text → Text → Text → Nat → Text × Cursor
  | read, _, [], column => (read.reverse, ⟨[], column⟩)
  | read, blanks, b :: rest, column =>
    let stop : Text × Cursor := (read.reverse, ⟨b :: rest, column⟩)
    if b = 10 then stop
    else if b = 32 ∨ b = 9 then plainLine inRow read (b :: blanks) rest (column + 1)
    else if b = 35 ∧ !blanks.isEmpty then stop
    else if b = 58 ∧ Cursor.spaced rest then stop
    else if inRow ∧ isRowMark b then stop
    else plainLine inRow (b :: (blanks ++ read)) [] rest (column + 1)

/-- Lines without content behind a plain scalar. -/
structure Gap where
  breaks : Nat
  /-- The last line end. -/
  lastBreak : Cursor
  /-- What follows the line ends. -/
  next : Cursor

/-- The lines without content that follow. A tab may not stand before the column `least`. -/
def skipBreaks (least : Int) : Nat → Cursor → Text → Nat → Option Gap
  | n, last, [], column => some ⟨n, last, ⟨[], column⟩⟩
  | n, last, b :: rest, column =>
    if b = 10 then skipBreaks least (n + 1) ⟨b :: rest, column⟩ rest 0
    else if b = 9 ∧ 0 < n ∧ (column : Int) < least then none
    else if b = 32 ∨ b = 9 then skipBreaks least n last rest (column + 1)
    else some ⟨n, last, ⟨b :: rest, column⟩⟩

/-- The lines of a plain scalar behind its first one. Outside of brackets a line belongs to the scalar if it
is indented more than what the scalar is in. -/
def plainMore (inRow : Bool) (parent : Int) : Nat → Text → Cursor → Option (Text × Cursor)
  | 0, read, c => some (read, c)
  | fuel + 1, read, c =>
    if !c.at? 10 then some (read, c)
    else do
      let gap ← skipBreaks (parent + 1) 0 c c.rest c.column
      let d := gap.next
      if d.rest.isEmpty ∨ d.at? 35 then some (read, d)
      else if d.atMarker ∨ (!inRow ∧ (d.column : Int) ≤ parent) then some (read, gap.lastBreak)
      else
        let (line, e) := plainLine inRow [] [] d.rest d.column
        if line.isEmpty then some (read, gap.lastBreak)
        else plainMore inRow parent fuel (read ++ joinLines gap.breaks ++ line) e

/-- Whether a plain scalar can start with a text. -/
def plainStarts (inRow : Bool) : Text → Bool
  | [] => false
  | b :: rest =>
    if b = 45 then !Cursor.spaced rest
    else if b = 63 ∨ b = 58 then !inRow && !Cursor.spaced rest
    else !(indicators.contains b.toNat) && b ≠ 32 && b ≠ 9 && b ≠ 10

/-- A plain scalar in something that is indented by `parent`. -/
def plainScalar (inRow : Bool) (parent : Int) (c : Cursor) : Option (Text × Cursor) :=
  if plainStarts inRow c.rest then
    let (line, d) := plainLine inRow [] [] c.rest c.column
    plainMore inRow parent (c.rest.length + 1) line d
  else none

/-! ## Quoted scalars -/

/-- What lies between the content of a quoted text that has been read and the next one. -/
inductive Pause where
  | blanks (t : Text)
  | breaks (n : Nat)
  /-- Line ends, behind one that was escaped. -/
  | joined (n : Nat)

/-- A quoted text as far as it has been read, in reverse. -/
structure Folded where
  read : Text := []
  pause : Pause := .blanks []

namespace Folded

/-- The text up to the next content. -/
def settle (f : Folded) : Text :=
  match f.pause with
  | .blanks t => t ++ f.read
  | .breaks n => joinLines n ++ f.read
  | .joined n => List.replicate n 10 ++ f.read

/-- The text when the closing quote is met. -/
def close (f : Folded) : Text := f.settle.reverse

/-- Content is read. -/
def push (f : Folded) (t : Text) : Folded := { read := t.reverse ++ f.settle }

/-- A blank is read. -/
def blank (f : Folded) (b : UInt8) : Folded :=
  match f.pause with
  | .blanks t => { f with pause := .blanks (b :: t) }
  | _ => f

/-- A line end is read. -/
def lineEnd (f : Folded) : Folded :=
  match f.pause with
  | .blanks _ => { f with pause := .breaks 1 }
  | .breaks n => { f with pause := .breaks (n + 1) }
  | .joined n => { f with pause := .joined (n + 1) }

/-- An escaped line end is read. -/
def join (f : Folded) : Folded := { read := f.settle, pause := .joined 0 }

end Folded

/-- A text in single quotes; `quote` tells whether a quote has just been read. -/
def singleQuote (quote : Bool) (f : Folded) : Text → Nat → Option (Text × Cursor)
  | [], column => if quote then some (f.close, ⟨[], column⟩) else none
  | b :: rest, column =>
    let c : Cursor := ⟨b :: rest, column⟩
    if quote then
      if b = 39 then singleQuote false (f.push [39]) rest (column + 1)
      else some (f.close, c)
    else if c.atMarker then none
    else if b = 39 then singleQuote true f rest (column + 1)
    else if b = 10 then singleQuote false f.lineEnd rest 0
    else if b = 32 ∨ b = 9 then singleQuote false (f.blank b) rest (column + 1)
    else singleQuote false (f.push [b]) rest (column + 1)

/-- Where the reader of a text in double quotes is. -/
inductive DoubleState where
  | text
  | escape
  /-- Within the digits of a character: how many follow, and the value so far. -/
  | digits (left value : Nat)

/-- The character that a letter stands for behind a backslash. -/
def escapeCode (b : UInt8) : Option Nat :=
  [(48, 0x00), (97, 0x07), (98, 0x08), (116, 0x09), (9, 0x09), (110, 0x0A), (118, 0x0B), (102, 0x0C),
   (114, 0x0D), (101, 0x1B), (32, 0x20), (34, 0x22), (39, 0x27), (47, 0x2F), (92, 0x5C), (78, 0x85),
   (95, 0xA0), (76, 0x2028), (80, 0x2029)].lookup b

/-- The number of digits that follow a letter behind a backslash. -/
def escapeDigits (b : UInt8) : Option Nat := [(120, 2), (117, 4), (85, 8)].lookup b

/-- A text in double quotes. -/
def doubleQuote (s : DoubleState) (f : Folded) : Text → Nat → Option (Text × Cursor)
  | [], _ => none
  | b :: rest, column =>
    match s with
    | .text =>
      if (Cursor.mk (b :: rest) column).atMarker then none
      else if b = 34 then some (f.close, ⟨rest, column + 1⟩)
      else if b = 92 then doubleQuote .escape f rest (column + 1)
      else if b = 10 then doubleQuote .text f.lineEnd rest 0
      else if b = 32 ∨ b = 9 then doubleQuote .text (f.blank b) rest (column + 1)
      else doubleQuote .text (f.push [b]) rest (column + 1)
    | .escape =>
      if b = 10 then doubleQuote .text f.join rest 0
      else match escapeCode b, escapeDigits b with
        | some c, _ => doubleQuote .text (f.push (Text.ofCode c)) rest (column + 1)
        | none, some n => doubleQuote (.digits n 0) f rest (column + 1)
        | none, none => none
    | .digits left value =>
      match Text.digitValue b with
      | none => none
      | some d =>
        if 16 ≤ d then none
        else if 1 < left then doubleQuote (.digits (left - 1) (value * 16 + d)) f rest (column + 1)
        else if Text.isScalar (value * 16 + d) then
          doubleQuote .text (f.push (Text.ofCode (value * 16 + d))) rest (column + 1)
        else none

/-! ## Blocks of lines -/

/-- What becomes of the line ends behind a block. -/
inductive Chomp where
  | strip
  | clip
  | keep
  deriving DecidableEq

/-- The head of a block: the indentation, if it is given, what becomes of the last line ends, and what
follows the head. -/
def blockHead (n : Option Nat) (k : Chomp) : Text → Option (Option Nat × Chomp × Text)
  | [] => some (n, k, [])
  | b :: rest =>
    if b = 43 ∧ k = .clip then blockHead n .keep rest
    else if b = 45 ∧ k = .clip then blockHead n .strip rest
    else if 49 ≤ b ∧ b ≤ 57 ∧ n = none then blockHead (some (b.toNat - 48)) k rest
    else if (Cursor.mk (b :: rest) 0).atLineEnd then some (n, k, (b :: rest).dropWhile (· ≠ 10))
    else none

/-- The number of blanks at the start of a line. -/
def leadingBlanks (line : Text) : Nat := (line.takeWhile (· = 32)).length

/-- The indentation of a block by its first lines: the greatest of the lines up to the first one with
content. A tab may not stand in the place of indentation. -/
def blockWidth : List Text → Option Nat
  | [] => some 0
  | l :: rest =>
    let n := leadingBlanks l
    match l.drop n with
    | [] => (blockWidth rest).map (max n)
    | b :: _ => if b = 9 then none else some n

/-- A block as far as it has been read. -/
structure Block where
  read : Text := []
  /-- Whether the line end of the last line with content was met. -/
  ended : Bool := false
  /-- The number of empty lines behind it. -/
  empty : Nat := 0
  /-- Whether that line started with a blank. -/
  indented : Bool := false

namespace Block

/-- A line with content is read. If the block is folded, a line end between two lines that start with no
blank becomes a blank, or is dropped before empty lines. -/
def push (folded last : Bool) (k : Block) (line : Text) : Block :=
  let indented := line.head? = some 32 || line.head? = some 9
  let between : Text :=
    if folded ∧ !k.indented ∧ !indented ∧ k.ended then (if k.empty = 0 then [32] else [])
    else if k.ended then [10] else []
  ⟨k.read ++ between ++ List.replicate k.empty 10 ++ line, !last, 0, indented⟩

/-- The text of a block that has been read. -/
def finish (k : Block) (c : Chomp) : Text :=
  let ending : Text := if k.ended then [10] else []
  match c with
  | .strip => k.read
  | .clip => k.read ++ ending
  | .keep => k.read ++ ending ++ List.replicate k.empty 10

end Block

/-- The lines of a block with an indentation, and the lines behind it. -/
def blockLines (folded : Bool) (width : Nat) : Block → List Text → Option (Block × List Text)
  | k, [] => some (k, [])
  | k, l :: rest =>
    let n := leadingBlanks l
    if width ≤ n ∧ width < l.length then
      blockLines folded width (k.push folded rest.isEmpty (l.drop width)) rest
    else if n = l.length then
      if rest.isEmpty then some (k, []) else blockLines folded width { k with empty := k.empty + 1 } rest
    else if l.drop n |>.head? |> (· = some 9) then none
    else some (k, l :: rest)

/-- A block of lines in something that is indented by `parent`. -/
def blockScalar (folded : Bool) (parent : Int) (c : Cursor) : Option (Text × Cursor) := do
  let (given, chomp, rest) ← blockHead none .clip c.step.rest
  let lines := splitLines rest.tail
  let width ← match given with
    | some n => some (parent.toNat + n)
    | none => (blockWidth lines).map fun w => max (max w (parent + 1).toNat) 1
  let (k, left) ← blockLines folded width {} lines
  let after : Text := if left.isEmpty then [] else 10 :: Text.join [10] left
  return (k.finish chomp, ⟨after, 0⟩)

end CoordSplit.Yaml
