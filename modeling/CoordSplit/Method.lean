import CoordSplit.Code
import CoordSplit.Diagnostic

/-!
# Methods and classes

A method has a name, a descriptor, access flags, code, a table of local variables, exception handlers
and limits. Handlers and variables refer to the code by instruction ids.
-/

set_option autoImplicit false

namespace CoordSplit

/-- The access flags that have a name, lowest bit first. -/
def accessNames : List (UInt16 × String) :=
  [(0x0001, "public"), (0x0002, "private"), (0x0004, "protected"), (0x0008, "static"),
   (0x0010, "final"), (0x0020, "synchronized"), (0x0040, "bridge"), (0x0080, "varargs"),
   (0x0100, "native"), (0x0400, "abstract"), (0x0800, "strict"), (0x1000, "synthetic")]

/-- The access flags of a method, one bit each. -/
structure Access where
  bits : UInt16
  deriving DecidableEq

namespace Access

/-- No flag. -/
def none : Access := ⟨0⟩

/-- The names of the flags that are set. -/
def names (a : Access) : List Text :=
  accessNames.filterMap fun p => if a.bits &&& p.1 ≠ 0 then some (Text.ofString p.2) else Option.none

/-- The flag of a name. -/
def ofName? (name : Text) : Option Access :=
  (accessNames.find? fun p => Text.ofString p.2 = name).map fun p => ⟨p.1⟩

/-- The flags of either. -/
def union (a b : Access) : Access := ⟨a.bits ||| b.bits⟩

/-- Whether the flag of methods without a receiver is set. -/
def isStatic (a : Access) : Bool := a.bits &&& 0x0008 ≠ 0

end Access

/-- An entry of the table of local variables: `slot` holds the variable from `start` up to `stop`. -/
structure LocalVar where
  name : Text
  desc : Text
  signature : Text
  slot : Int
  start : InsnId
  stop : InsnId
  deriving DecidableEq

/-- An exception handler for the instructions from `start` up to `stop`. An empty type catches
everything. -/
structure Handler where
  type : Text
  start : InsnId
  stop : InsnId
  handler : InsnId
  deriving DecidableEq

/-- A method of a class. -/
structure Method where
  name : Text
  desc : Text
  access : Access
  code : Code
  locals : List LocalVar
  handlers : List Handler
  maxStack : Int
  maxLocals : Int
  deriving DecidableEq

namespace Method

/-- The name followed by the descriptor. -/
def title (m : Method) : Text := m.name ++ m.desc

/-- Whether the method has no receiver. -/
def isStatic (m : Method) : Bool := m.access.isStatic

/-- The type of the method. -/
def type (m : Method) : Except DescriptorError MethodType := MethodType.parse m.desc

/-- The local slots that a list of parameters takes: the second half of a wide one is unusable. -/
def paramSlots (params : List ValueType) : List ValueType :=
  params.flatMap fun t => if t.size = 2 then [t, .top] else [t]

/-- Why the parameters of a method are not known: its descriptor cannot be read. -/
structure ParamsError where
  cause : DescriptorError

/-- The wording of the cause. -/
def ParamsError.message (e : ParamsError) : Text := "method type: " ++ e.cause.message

/-- The types of the initial local slots: the receiver, unless the method is static, and then the
parameters. -/
def params (m : Method) (owner : Text) : Except ParamsError (List ValueType) :=
  match m.type with
  | .error e => .error ⟨e⟩
  | .ok f => .ok ((if m.isStatic then [] else [.object owner]) ++ paramSlots f.params)

end Method

/-- A class with its methods. -/
structure ClassModel where
  name : Text
  parent : Text
  methods : List Method
  deriving DecidableEq

namespace ClassModel

/-- The class that a class extends unless it says otherwise. -/
def defaultParent : Text := "java/lang/Object"

/-- The position of the method with the given name and descriptor. -/
def methodIndex? (c : ClassModel) (name desc : Text) : Option Nat :=
  c.methods.findIdx? fun m => m.name = name && m.desc = desc

end ClassModel

end CoordSplit
