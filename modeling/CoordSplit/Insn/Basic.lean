import CoordSplit.Insn.Opcode
import CoordSplit.Descriptor.Parser

/-!
# Instructions

An instruction is an opcode with the operands of its form. The form and the opcode are independent: a
class may hold a jump with the opcode of an addition, and the operations that interpret instructions
say what they make of it.

Branches refer to other instructions by id (`InsnId`); `InsnId.none` refers to nothing.
-/

set_option autoImplicit false

namespace CoordSplit

/-- The id of an instruction within its code. -/
abbrev InsnId := Int

/-- The id that refers to no instruction. -/
def InsnId.none : InsnId := -1

/-- A field or a method of a class, by owner, name and descriptor. -/
structure Member where
  owner : Text
  name : Text
  desc : Text
  deriving DecidableEq

/-- The member as `owner#name desc`. -/
def Member.key (m : Member) : Text := Text.concat [m.owner, "#", m.name, " ", m.desc]

/-- A constant that an instruction pushes. -/
inductive Constant where
  | int (value : Int32)
  | long (value : Int64)
  /-- A single precision number by its bits. -/
  | float (bits : UInt32)
  /-- A double precision number by its bits. -/
  | double (bits : UInt64)
  | string (value : Text)
  /-- A class literal. -/
  | type (t : ValueType)
  /-- A constant of a kind that no instruction supports. -/
  | truth (value : Bool)
  deriving DecidableEq

namespace Constant

/-- The type of the pushed value. -/
def type? : Constant → Option ValueType
  | .int _ => some .int
  | .long _ => some .long
  | .float _ => some .float
  | .double _ => some .double
  | .string _ => some .stringClass
  | .type _ => some .classClass
  | .truth _ => none

/-- The name of the constant's kind in messages about constants that are not supported. -/
def kindName : Constant → Text
  | .int _ => "int32"
  | .long _ => "int64"
  | .float _ => "float32"
  | .double _ => "float64"
  | .string _ => "string"
  | .type (.prim _) => "tp.Prim"
  | .type (.object _) => "tp.Object"
  | .type (.array _) => "tp.Array"
  | .type .top | .type .null => "tp.special"
  | .truth _ => "bool"

end Constant

/-- An instruction. -/
inductive Insn where
  /-- No operands. -/
  | plain (op : Opcode)
  /-- A small immediate: a constant, or the element code of a new array. -/
  | push (op : Opcode) (value : Int32)
  /-- A constant of the class. -/
  | ldc (value : Constant)
  /-- A load or a store of a local slot. -/
  | var (op : Opcode) (slot : Int)
  /-- An addition to a local slot. -/
  | iinc (slot : Int) (delta : Int32)
  /-- A branch. -/
  | jump (op : Opcode) (target : InsnId)
  /-- A branch by the value of an int; `otherwise` is taken when no key fits. -/
  | switch (op : Opcode) (keys : List Int32) (otherwise : InsnId) (targets : List InsnId)
  /-- An access to a field. -/
  | field (op : Opcode) (member : Member)
  /-- A call; `itf` says that the owner is an interface. -/
  | call (op : Opcode) (member : Member) (itf : Bool)
  /-- An operation on a class by its internal name. -/
  | type (op : Opcode) (name : Text)
  /-- A new array of several dimensions. -/
  | multiArray (desc : Text) (dims : Int)
  /-- The mark of a branch target. -/
  | label
  deriving DecidableEq

namespace Insn

/-- The opcode of an instruction. -/
def opcode : Insn → Opcode
  | .plain op | .push op _ | .var op _ | .jump op _ | .switch op _ _ _ | .field op _
  | .call op _ _ | .type op _ => op
  | .ldc _ => .ldc
  | .iinc _ _ => .iinc
  | .multiArray _ _ => .multianewarray
  | .label => .label

/-- The name of the instruction's form in messages about instructions that are not supported. -/
def formName : Insn → Text
  | .plain _ => "ir.Plain"
  | .push _ _ => "ir.Push"
  | .ldc _ => "ir.Ldc"
  | .var _ _ => "ir.Var"
  | .iinc _ _ => "ir.Iinc"
  | .jump _ _ => "ir.Jump"
  | .switch _ _ _ _ => "ir.Switch"
  | .field _ _ => "ir.Field"
  | .call _ _ _ => "ir.Call"
  | .type _ _ => "ir.TypeInsn"
  | .multiArray _ _ => "ir.MultiArray"
  | .label => "ir.Label"

/-- The instructions that an instruction may branch to. -/
def targets : Insn → List InsnId
  | .jump _ target => [target]
  | .switch _ _ otherwise targets => otherwise :: targets
  | _ => []

/-- Whether the instruction marks a branch target. -/
def isLabel : Insn → Bool
  | .label => true
  | _ => false

end Insn

namespace Opcode

/-- The type that a load or a store moves. -/
def varType? : Opcode → Option ValueType
  | .iload | .istore => some .int
  | .lload | .lstore => some .long
  | .fload | .fstore => some .float
  | .dload | .dstore => some .double
  | .aload | .astore => some .objectClass
  | _ => none

end Opcode

/-- The element types of new arrays: code, name and type. -/
def arrayElements : List (Int32 × String × Prim) :=
  [(4, "boolean", .boolean), (5, "char", .char), (6, "float", .float), (7, "double", .double),
   (8, "byte", .byte), (9, "short", .short), (10, "int", .int), (11, "long", .long)]

/-- The name of an array element code. -/
def arrayElementName? (code : Int32) : Option Text :=
  (arrayElements.find? fun e => e.1 = code).map fun e => e.2.1

/-- The type of an array element code. -/
def arrayElementType? (code : Int32) : Option ValueType :=
  (arrayElements.find? fun e => e.1 = code).map fun e => .prim e.2.2

/-- The element code of an array type name. -/
def arrayElementCode? (name : Text) : Option Int32 :=
  (arrayElements.find? fun e => Text.ofString e.2.1 = name).map fun e => e.1

end CoordSplit
