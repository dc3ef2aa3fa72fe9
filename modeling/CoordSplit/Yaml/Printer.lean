import CoordSplit.Text.Base64
import CoordSplit.Text.Utf8
import CoordSplit.Yaml.Meaning

/-!
# Printing documents

Documents are printed in block style: a field or an item on each line, lists indented under their keys.
A text is written without quotes when that reads back as the text, in single quotes when only the syntax
forbids it, and in double quotes when it would mean something else or needs escapes. A text of several
lines is written as a literal block. Bytes that are no text are written in base 64.
-/

set_option autoImplicit false

namespace CoordSplit.Yaml

/-- What is printed. -/
inductive Tree where
  | text (t : Text)
  | int (i : Int)
  | truth (b : Bool)
  /-- A list on one line. -/
  | row (items : List Tree)
  | list (items : List Tree)
  /-- A map; its keys are words that need no quotes. -/
  | map (fields : List (String × Tree))

/-- Whether a character is a space or a tab. -/
def isBlankCode (c : Nat) : Bool := c = 32 || c = 9

/-- Whether a character ends a line. -/
def isBreakCode (c : Nat) : Bool := c = 10 || c = 13 || c = 0x85 || c = 0x2028 || c = 0x2029

/-- Whether a character may be written as it is. -/
def isPlainCode (c : Nat) : Bool :=
  c = 10 || (0x20 ≤ c && c ≤ 0x7E) || (0xA0 ≤ c && c ≤ 0xD7FF) ||
    (0xE000 ≤ c && c ≤ 0xFFFD && c ≠ 0xFEFF)

/-- The code points of a text. -/
def codes (t : Text) : List Nat :=
  (Text.pieces t).map fun p => match p with
    | .char code _ => code
    | .stray b => b.toNat

/-- Whether a pair of neighbours has a property. -/
def anyPair (p : Nat → Nat → Bool) : List Nat → Bool
  | a :: b :: rest => p a b || anyPair p (b :: rest)
  | _ => false

/-- The characters that no unquoted text starts with. -/
def indicators : List Nat := "#,[]\x7b\x7d&*!|>'\"%@`".toList.map Char.toNat

/-- Whether the syntax reads something else into a text that starts with some characters. -/
def misreadStart : List Nat → Bool
  | [] => false
  | a :: rest =>
    let spaced := (rest.head?.map isBlankCode).getD true
    indicators.contains a || ((a = 63 || a = 58 || a = 45) && spaced) ||
      ((a = 45 || a = 46) && rest.take 2 = [a, a])

/-- Whether the syntax reads something else into a text: a key at a colon, or a comment. -/
def misreadInside : List Nat → Bool
  | a :: b :: rest =>
    (b = 58 && (rest.head?.map isBlankCode).getD true) ||
      (b = 35 && (isBlankCode a || isBreakCode a || a = 0)) || misreadInside (b :: rest)
  | _ => false

/-- Whether a list on one line reads something else into a text. -/
def misreadInRow (cs : List Nat) : Bool :=
  cs.head? = some 63 || cs.head? = some 58 ||
    cs.tail.any fun c => c = 44 || c = 63 || c = 91 || c = 93 || c = 123 || c = 125 || c = 58

/-- Whether some character needs an escape, or blanks next to a line end would be lost. -/
def needsEscapes (cs : List Nat) : Bool :=
  cs.any (fun c => c = 9 || !isPlainCode c) || anyPair (fun a b => isBreakCode a && b = 32) cs ||
    anyPair (fun a b => a = 32 && isBreakCode b) cs

/-- Whether the syntax allows a text without quotes. -/
def plainAllowed (inRow : Bool) (cs : List Nat) : Bool :=
  let edge (c : Option Nat) := (c.map fun c => c = 32 || isBreakCode c).getD false
  !edge cs.head? && !edge cs.getLast? && !needsEscapes cs && !cs.any isBreakCode &&
    !misreadStart cs && !misreadInside cs && !(inRow && (misreadInRow cs || cs.isEmpty))

/-- Whether a text may be a literal block. -/
def literalAllowed (cs : List Nat) : Bool :=
  cs.getLast? ≠ some 32 && !anyPair (fun a b => a = 32 && isBreakCode b) cs &&
    !cs.any (fun c => c ≠ 9 && !isPlainCode c)

/-- The letter that stands for a character behind a backslash. -/
def escapeLetter (c : Nat) : Option Char :=
  [(0x00, '0'), (0x07, 'a'), (0x08, 'b'), (0x09, 't'), (0x0A, 'n'), (0x0B, 'v'), (0x0C, 'f'),
   (0x0D, 'r'), (0x1B, 'e'), (0x22, '"'), (0x5C, '\\'), (0x85, 'N'), (0xA0, '_'), (0x2028, 'L'),
   (0x2029, 'P')].lookup c

/-- The hexadecimal digits of a number in capitals, filled up with zeros. -/
def hexCapitals (width n : Nat) : Text :=
  (Text.hexPadded width n).map fun b => if 97 ≤ b ∧ b ≤ 122 then b - 32 else b

/-- A character between double quotes. -/
def doubleQuotedCode (c : Nat) : Text :=
  if isPlainCode c && !isBreakCode c && c ≠ 34 && c ≠ 92 then Text.ofCode c
  else match escapeLetter c with
    | some l => [92, UInt8.ofNat l.toNat]
    | none =>
      if c ≤ 0xFF then 92 :: 120 :: hexCapitals 2 c
      else if c ≤ 0xFFFF then 92 :: 117 :: hexCapitals 4 c
      else 92 :: 85 :: hexCapitals 8 c

/-- A text between double quotes. -/
def doubleQuoted (t : Text) : Text := 34 :: ((codes t).flatMap doubleQuotedCode ++ [34])

/-- A text between single quotes. -/
def singleQuoted (t : Text) : Text :=
  39 :: (t.flatMap (fun b => if b = 39 then [39, 39] else [b]) ++ [39])

/-- A text on one line. -/
def textInline (inRow : Bool) (t : Text) : Text :=
  if !Text.isUtf8 t then "!!binary " ++ Text.toBase64 t
  else if t.contains 10 || !standsForItself t then doubleQuoted t
  else
    let cs := codes t
    if plainAllowed inRow cs then t
    else if needsEscapes cs then doubleQuoted t
    else singleQuoted t

/-- The lines of a text. -/
def splitLines : Text → List Text
  | [] => [[]]
  | b :: rest =>
    if b = 10 then [] :: splitLines rest
    else match splitLines rest with
      | l :: ls => (b :: l) :: ls
      | [] => [[b]]

/-- The head of a literal block: whether its first line is indented or empty, and what becomes of the line
ends behind the text. -/
def literalHead (t : Text) : Text :=
  let hint : Text := if t.head? = some 32 ∨ t.head? = some 10 then "2" else []
  let chomp : Text := if t.getLast? ≠ some 10 then "-"
    else if t.length = 1 ∨ t.dropLast.getLast? = some 10 then "+" else []
  124 :: (hint ++ chomp)

/-- The lines of a literal block. The line end of the head is that of a first line that is empty. -/
def literalLines (t : Text) : List Text :=
  let ls := splitLines t
  let ls := if ls.getLast? = some [] then ls.dropLast else ls
  if ls.head? = some [] then ls.tail else ls

/-- A text cut into parts of a length; the first argument bounds their number. -/
def cutParts (n : Nat) : Nat → Text → List Text
  | 0, _ => []
  | bound + 1, t => if t.isEmpty then [] else t.take n :: cutParts n bound (t.drop n)

/-- The length of a line of base 64. -/
def base64Width : Nat := 70

/-- The head and the lines of a text that is written as a block: one of several lines, or base 64 that does
not fit on a line. -/
def textBlock? (t : Text) : Option (Text × List Text) :=
  if !Text.isUtf8 t then
    let b := Text.toBase64 t
    if b.length < base64Width then none
    else some (Text.ofString "!!binary |", cutParts base64Width b.length b)
  else if t.contains 10 && literalAllowed (codes t) then some (literalHead t, literalLines t)
  else none

/-- The lines of a block moved to the right; empty lines stay empty. -/
def indent (ls : List Text) : List Text :=
  ls.map fun l => if l.isEmpty then l else 32 :: 32 :: l

/-- The lines of a block behind a dash. -/
def dash : List Text → List Text
  | [] => []
  | l :: ls => (45 :: 32 :: l) :: indent ls

/-- Something that is printed on one line within a list on one line. -/
def rowItem : Tree → Text
  | .text t => textInline true t
  | .int i => Text.ofInt i
  | .truth b => Text.ofBool b
  | _ => []

mutual

/-- What is printed behind a key or a dash, and the lines that follow. The lines of lists and maps start on
a new line; nothing stands behind the key then. -/
def valueLines : Tree → Text × List Text
  | .text t =>
    match textBlock? t with
    | some (head, ls) => (head, indent ls)
    | none => (textInline false t, [])
  | .int i => (Text.ofInt i, [])
  | .truth b => (Text.ofBool b, [])
  | .row items => (Text.concat ["[", Text.join ", " (items.map rowItem), "]"], [])
  | .list items => if items.isEmpty then (Text.ofString "[]", []) else ([], indent (listLines items))
  | .map fields => if fields.isEmpty then (Text.ofString "\x7b\x7d", []) else ([], indent (mapLines fields))

/-- The lines of a list. -/
def listLines : List Tree → List Text
  | [] => []
  | x :: rest => itemLines x ++ listLines rest

/-- The lines of an item of a list: a list or a map starts behind the dash. -/
def itemLines : Tree → List Text
  | .list items => if items.isEmpty then [Text.ofString "- []"] else dash (listLines items)
  | .map fields => if fields.isEmpty then [Text.ofString "- \x7b\x7d"] else dash (mapLines fields)
  | .text t =>
    match textBlock? t with
    | some (head, ls) => ("- " ++ head) :: indent ls
    | none => ["- " ++ textInline false t]
  | .int i => ["- " ++ Text.ofInt i]
  | .truth b => ["- " ++ Text.ofBool b]
  | .row items => [Text.concat ["- [", Text.join ", " (items.map rowItem), "]"]]

/-- The lines of a map. -/
def mapLines : List (String × Tree) → List Text
  | [] => []
  | (k, x) :: rest =>
    let (head, ls) := valueLines x
    let first : Text := if head.isEmpty then Text.ofString k ++ [58] else Text.ofString k ++ [58, 32] ++ head
    first :: ls ++ mapLines rest

end

/-- A document. -/
def Tree.print (x : Tree) : Text :=
  let ls := match x with
    | .map fields => if fields.isEmpty then [Text.ofString "\x7b\x7d"] else mapLines fields
    | .list items => if items.isEmpty then [Text.ofString "[]"] else listLines items
    | _ => [(valueLines x).1]
  Text.concat (ls.map fun l => l ++ [10])

end CoordSplit.Yaml
