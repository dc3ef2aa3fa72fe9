import CoordSplit.Text.Basic

/-!
# Words of assembly text

A line of assembly text is a sequence of words between blanks. A word that starts with a double quote
runs to the closing quote, blanks included, and a backslash in it protects the byte behind it, even
the end of the line. A word that starts with `;` or `//` starts a comment.

`Assembly.lines` cuts a text into lines of words. A line whose quoted word is not closed is `none`, and
ends the list.
-/

set_option autoImplicit false

namespace CoordSplit.Assembly

/-- What the reader of a line is in the middle of; words are collected in reverse. -/
inductive LexState where
  | between
  | word (read : Text)
  | quoted (read : Text)
  | escape (read : Text)
  | comment

/-- A unit of assembly text. -/
inductive Lexeme where
  | word (t : Text)
  | lineEnd
  | unterminated
  deriving DecidableEq

/-- Whether a byte separates words within a line. -/
def isBlank (b : UInt8) : Bool := b = 32 || b = 9 || b = 13

/-- The units of a text, from a state on. -/
def lex : LexState → Text → List Lexeme
  | .between, [] | .comment, [] => []
  | .word w, [] => [.word w.reverse]
  | .quoted _, [] | .escape _, [] => [.unterminated]
  | .between, b :: rest =>
    if b = 10 then .lineEnd :: lex .between rest
    else if isBlank b then lex .between rest
    else if b = 59 then lex .comment rest
    else if b = 47 && rest.head? = some 47 then lex .comment rest
    else if b = 34 then lex (.quoted [b]) rest
    else lex (.word [b]) rest
  | .word w, b :: rest =>
    if b = 10 then .word w.reverse :: .lineEnd :: lex .between rest
    else if isBlank b then .word w.reverse :: lex .between rest
    else lex (.word (b :: w)) rest
  | .quoted w, b :: rest =>
    if b = 34 then .word (b :: w).reverse :: lex .between rest
    else if b = 10 then [.unterminated]
    else if b = 92 then lex (.escape (b :: w)) rest
    else lex (.quoted (b :: w)) rest
  | .escape w, b :: rest => lex (.quoted (b :: w)) rest
  | .comment, b :: rest =>
    if b = 10 then .lineEnd :: lex .between rest else lex .comment rest

/-- The lines of a sequence of units; `read` holds the words of the current line in reverse. -/
def groupLines : List Text → List Lexeme → List (Option (List Text))
  | _, [] => []
  | read, .word w :: rest => groupLines (w :: read) rest
  | read, .lineEnd :: rest => some read.reverse :: groupLines [] rest
  | _, .unterminated :: _ => [none]

/-- The text with its last line ended. -/
def endLastLine (t : Text) : Text :=
  if t.isEmpty ∨ t.getLast? = some 10 then t else t ++ [10]

/-- The lines of a text, each as its words. -/
def lines (t : Text) : List (Option (List Text)) := groupLines [] (lex .between (endLastLine t))

end CoordSplit.Assembly
