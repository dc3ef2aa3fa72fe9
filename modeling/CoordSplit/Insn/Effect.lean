import CoordSplit.Insn.Basic

/-!
# Stack effects

How many slot words an instruction pops and pushes, read off its form and its operands alone.
-/

set_option autoImplicit false

namespace CoordSplit

/-- Why the stack effect of an instruction is not known. -/
inductive EffectError where
  | badConstant (value : Constant)
  | unsupported (insn : Insn)
  | unsupportedPlain (op : Opcode)
  | field (member : Member) (cause : DescriptorError)
  | call (member : Member) (cause : DescriptorError)

namespace EffectError

/-- The wording of the cause. -/
def message : EffectError → Text
  | .badConstant c => "bad constant: " ++ c.kindName
  | .unsupported x =>
    Text.concat ["unsupported instruction: ", x.opcode.name, " (", x.formName, ")"]
  | .unsupportedPlain op => "unsupported plain instruction: " ++ op.name
  | .field m e => Text.concat ["field ", m.key, ": ", e.message]
  | .call m e => Text.concat ["call ", m.key, ": ", e.message]

end EffectError

/-- The words that an instruction pops, and the words that it pushes then. -/
structure StackEffect where
  pop : Int
  push : Int
  deriving DecidableEq

namespace Opcode

/-- The stack effect of an opcode without operands. -/
def plainEffect? : Opcode → Option StackEffect
  | .nop | .returnVoid => some ⟨0, 0⟩
  | .aconstNull | .iconstM1 | .iconst0 | .iconst1 | .iconst2 | .iconst3 | .iconst4 | .iconst5
  | .fconst0 | .fconst1 | .fconst2 => some ⟨0, 1⟩
  | .lconst0 | .lconst1 | .dconst0 | .dconst1 => some ⟨0, 2⟩
  | .iaload | .faload | .aaload | .baload | .caload | .saload => some ⟨2, 1⟩
  | .laload | .daload => some ⟨2, 2⟩
  | .iastore | .fastore | .aastore | .bastore | .castore | .sastore => some ⟨3, 0⟩
  | .lastore | .dastore => some ⟨4, 0⟩
  | .pop => some ⟨1, 0⟩
  | .pop2 => some ⟨2, 0⟩
  | .dup => some ⟨1, 2⟩
  | .dupX1 => some ⟨2, 3⟩
  | .dupX2 => some ⟨3, 4⟩
  | .dup2 => some ⟨2, 4⟩
  | .dup2X1 => some ⟨3, 5⟩
  | .dup2X2 => some ⟨4, 6⟩
  | .swap => some ⟨2, 2⟩
  | .iadd | .isub | .imul | .idiv | .irem | .ishl | .ishr | .iushr | .iand | .ior | .ixor
  | .fadd | .fsub | .fmul | .fdiv | .frem | .fcmpl | .fcmpg => some ⟨2, 1⟩
  | .ladd | .lsub | .lmul | .ldiv | .lrem | .land | .lor | .lxor
  | .dadd | .dsub | .dmul | .ddiv | .drem => some ⟨4, 2⟩
  | .lshl | .lshr | .lushr => some ⟨3, 2⟩
  | .ineg | .fneg | .i2f | .f2i | .i2b | .i2c | .i2s | .arraylength => some ⟨1, 1⟩
  | .lneg | .dneg | .l2d | .d2l => some ⟨2, 2⟩
  | .i2l | .i2d | .f2l | .f2d => some ⟨1, 2⟩
  | .l2i | .l2f | .d2i | .d2f => some ⟨2, 1⟩
  | .lcmp | .dcmpl | .dcmpg => some ⟨4, 1⟩
  | .ireturn | .freturn | .areturn | .athrow | .monitorenter | .monitorexit => some ⟨1, 0⟩
  | .lreturn | .dreturn => some ⟨2, 0⟩
  | _ => none

end Opcode

namespace Insn

/-- The stack effect of an instruction. -/
def effect (x : Insn) : Except EffectError StackEffect :=
  match x with
  | .label | .iinc _ _ => .ok ⟨0, 0⟩
  | .ldc c =>
    match c.type? with
    | some t => .ok ⟨0, t.size⟩
    | none => .error (.badConstant c)
  | .var op _ =>
    match op.varType? with
    | some t => if op.isLoad then .ok ⟨0, t.size⟩ else .ok ⟨t.size, 0⟩
    | none => if op = .ret then .ok ⟨0, 0⟩ else .error (.unsupported x)
  | .push op _ => if op = .newarray then .ok ⟨1, 1⟩ else .ok ⟨0, 1⟩
  | .jump op _ =>
    match op with
    | .goto => .ok ⟨0, 0⟩
    | .jsr => .ok ⟨0, 1⟩
    | .ifIcmpeq | .ifIcmpne | .ifIcmplt | .ifIcmpge | .ifIcmpgt | .ifIcmple
    | .ifAcmpeq | .ifAcmpne => .ok ⟨2, 0⟩
    | _ => .ok ⟨1, 0⟩
  | .switch _ _ _ _ => .ok ⟨1, 0⟩
  | .field op m =>
    match ValueType.parse m.desc with
    | .error e => .error (.field m e)
    | .ok t =>
      match op with
      | .getstatic => .ok ⟨0, t.size⟩
      | .putstatic => .ok ⟨t.size, 0⟩
      | .getfield => .ok ⟨1, t.size⟩
      | _ => .ok ⟨1 + t.size, 0⟩
  | .call op m _ =>
    match MethodType.parse m.desc with
    | .error e => .error (.call m e)
    | .ok f => .ok ⟨f.size + (if op.hasReceiver then 1 else 0), f.result.size⟩
  | .type op _ => if op = .new then .ok ⟨0, 1⟩ else .ok ⟨1, 1⟩
  | .multiArray _ dims => .ok ⟨dims, 1⟩
  | .plain op =>
    match op.plainEffect? with
    | some e => .ok e
    | none => .error (.unsupportedPlain op)

end Insn

end CoordSplit
