import CoordSplit.Text.Basic

/-!
# Outcomes

A computation ends in a value, in an error or in a fault. Errors speak about the input: they have a
wording and the caller reports them. A fault means that an operation was used outside its domain, such
as a position outside a sequence; it has no wording, and a program that faults has no answer.
-/

set_option autoImplicit false

namespace CoordSplit

/-- A use of an operation outside its domain. -/
inductive Fault where
  /-- A position that the sequence does not have. -/
  | index
  /-- A negative key given to a set of natural numbers. -/
  | key
  /-- A negative number of elements. -/
  | length
  /-- An instruction of another form than the operation works on. -/
  | form
  deriving DecidableEq

/-- The two ways in which a computation has no value. -/
inductive Failure (ε : Type) where
  | fault (f : Fault)
  | error (e : ε)

/-- A value, an error of type `ε`, or a fault. -/
abbrev Outcome (ε α : Type) := Except (Failure ε) α

namespace Outcome

variable {ε δ α : Type}

/-- The computation that ends in an error. -/
def fail (e : ε) : Outcome ε α := .error (.error e)

/-- The same outcome with its error, if it is one, described anew. -/
def mapError (f : ε → δ) : Outcome ε α → Outcome δ α
  | .ok a => .ok a
  | .error (.fault x) => .error (.fault x)
  | .error (.error e) => .error (.error (f e))

/-- A computation that cannot fault, as an outcome. -/
def ofExcept (f : ε → δ) : Except ε α → Outcome δ α
  | .ok a => .ok a
  | .error e => .error (.error (f e))

/-- A computation that cannot fault, as an outcome with the same errors. -/
def lift : Except ε α → Outcome ε α
  | .ok a => .ok a
  | .error e => .error (.error e)

/-- A computation that can only fault, as an outcome. -/
def ofFault : Except Fault α → Outcome ε α
  | .ok a => .ok a
  | .error f => .error (.fault f)

end Outcome

end CoordSplit
