import CoordSplit.Text.Quoted

/-!
# Types and descriptors

The types of values, the types of methods, and the descriptors that write them. Besides the types
that a descriptor can write there are two of the verifier's own: `top`, the type of a slot that cannot
be used, and `null`, the type of the null reference.

`ValueType.merge` joins two types where control flow meets.
-/

set_option autoImplicit false

namespace CoordSplit

-- Sums start from the built-in zero, whatever else is in scope.
attribute [local instance (2000)] Zero.ofOfNat0

/-- The primitive types, and `void`. -/
inductive Prim where
  | void
  | boolean
  | byte
  | char
  | short
  | int
  | long
  | float
  | double
  deriving DecidableEq

namespace Prim

/-- The letter that writes the type in a descriptor. -/
def letter : Prim → UInt8
  | .void => 86
  | .boolean => 90
  | .byte => 66
  | .char => 67
  | .short => 83
  | .int => 73
  | .long => 74
  | .float => 70
  | .double => 68

/-- The type of a descriptor letter. -/
def ofLetter? (b : UInt8) : Option Prim :=
  [.void, .boolean, .byte, .char, .short, .int, .long, .float, .double].find?
    fun p => p.letter = b

/-- The number of slot words that a value takes. -/
def size : Prim → Nat
  | .void => 0
  | .long | .double => 2
  | _ => 1

end Prim

/-- The type of a value. -/
inductive ValueType where
  | prim (p : Prim)
  /-- A class by its internal name, such as `java/lang/String`. -/
  | object (name : Text)
  | array (elem : ValueType)
  /-- The type of an unusable slot. -/
  | top
  /-- The type of the null reference. -/
  | null
  deriving DecidableEq

namespace ValueType

abbrev void : ValueType := .prim .void
abbrev int : ValueType := .prim .int
abbrev long : ValueType := .prim .long
abbrev float : ValueType := .prim .float
abbrev double : ValueType := .prim .double

/-- The class that every class extends. -/
def objectClass : ValueType := .object "java/lang/Object"

/-- The class of string constants. -/
def stringClass : ValueType := .object "java/lang/String"

/-- The class of class literals. -/
def classClass : ValueType := .object "java/lang/Class"

/-- The class of everything that can be thrown. -/
def throwable : ValueType := .object "java/lang/Throwable"

/-- The number of slot words that a value takes. -/
def size : ValueType → Nat
  | .prim p => p.size
  | _ => 1

/-- The descriptor of the type; the types that no descriptor writes have their names. -/
def desc : ValueType → Text
  | .prim p => [p.letter]
  | .object name => 76 :: (name ++ [59])
  | .array elem => 91 :: elem.desc
  | .top => "top"
  | .null => "null"

/-- The short name of the type: a class by its internal name, any other type by its descriptor. -/
def display : ValueType → Text
  | .object name => name
  | t => t.desc

/-- Whether values of the type are held on the stack as an int. -/
def isInt : ValueType → Bool
  | .prim .boolean | .prim .byte | .prim .char | .prim .short | .prim .int => true
  | _ => false

/-- Whether values of the type are references. -/
def isRef : ValueType → Bool
  | .object _ | .array _ | .null => true
  | _ => false

/-- The join of two types where control flow meets: equal types are kept, int-like types give `int`,
null gives way to any reference, two references give the root class, and anything else is unusable. -/
def merge (x y : ValueType) : ValueType :=
  if x = y then x
  else if x.isInt && y.isInt then int
  else if x = .null && y.isRef then y
  else if y = .null && x.isRef then x
  else if x.isRef && y.isRef then objectClass
  else .top

end ValueType

/-- The type of a method: what it takes and what it gives back. -/
structure MethodType where
  params : List ValueType
  result : ValueType
  deriving DecidableEq

namespace MethodType

/-- The number of slot words that the parameters take. -/
def size (f : MethodType) : Nat := (f.params.map ValueType.size).sum

/-- The descriptor of the method type. -/
def desc (f : MethodType) : Text :=
  40 :: (f.params.flatMap ValueType.desc ++ 41 :: f.result.desc)

/-- Why parameters cannot be split into three ints each. -/
inductive SplitError where
  | outOfRange (index : Int) (f : MethodType)
  | notLong (index : Int) (f : MethodType) (t : ValueType)
  deriving DecidableEq

/-- The wording of the cause. -/
def SplitError.message : SplitError → Text
  | .outOfRange i f => Text.concat ["argument ", Text.ofInt i, " out of range ", f.desc]
  | .notLong i f t =>
    Text.concat ["argument ", Text.ofInt i, " of ", f.desc, " is ", t.desc, ", not long"]

/-- A parameter index is fit for splitting if the parameter exists and is a long. -/
def checkSplit (f : MethodType) (i : Int) : Except SplitError Unit :=
  match i with
  | .negSucc _ => .error (.outOfRange i f)
  | .ofNat k =>
    match f.params[k]? with
    | none => .error (.outOfRange i f)
    | some t => if t = .long then .ok () else .error (.notLong i f t)

/-- The parameters from position `i` on, with those whose index is listed split into three ints. -/
def splitParams (indices : List Int) : Nat → List ValueType → List ValueType
  | _, [] => []
  | i, t :: rest =>
    if indices.contains (i : Int) then .int :: .int :: .int :: splitParams indices (i + 1) rest
    else t :: splitParams indices (i + 1) rest

/-- The method type with the long parameters at the given indices replaced by three ints each. -/
def split (f : MethodType) (indices : List Int) : Except SplitError MethodType := do
  indices.forM f.checkSplit
  return { f with params := splitParams indices 0 f.params }

end MethodType

end CoordSplit
