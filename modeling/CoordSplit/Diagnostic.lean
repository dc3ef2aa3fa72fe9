import CoordSplit.Text.Basic

/-!
# Diagnostics

What the caller of an operation is told when it fails: the full wording, and what the failure points at.
Every error type of the library has a function to this one view.
-/

set_option autoImplicit false

namespace CoordSplit

/-- The document formats that a class or a catalog can be read from. -/
inductive DocumentFormat where
  | yaml
  | toml
  | cbor
  deriving DecidableEq

/-- What a failure points at. -/
inductive Diagnostic.Kind where
  /-- Nothing but the wording. -/
  | plain
  /-- An instruction that cannot be transformed safely. -/
  | inconsistent (id : Int)
  /-- An instruction that cannot be interpreted at all. -/
  | malformed (id : Int)
  /-- A line of assembly text. -/
  | source (line : Nat)
  /-- A document that is not well formed or does not fit the model. -/
  | undecodable (format : DocumentFormat)
  /-- A file that cannot be read or written. -/
  | file
  deriving DecidableEq

/-- A failure as it is reported. -/
structure Diagnostic where
  /-- The full wording. -/
  text : Text
  /-- What the failure points at. -/
  kind : Diagnostic.Kind
  /-- The method that failed, and the position of the instruction in it or `-1`. -/
  method : Option (Text × Int)

namespace Diagnostic

/-- A failure of which only the wording is known. -/
def plain (text : Text) : Diagnostic := ⟨text, .plain, none⟩

/-- The same failure, told in a context: `context: text`. -/
def within (context : Text) (d : Diagnostic) : Diagnostic :=
  { d with text := context ++ ": " ++ d.text }

end Diagnostic

end CoordSplit
