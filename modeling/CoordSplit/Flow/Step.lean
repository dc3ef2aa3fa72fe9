import CoordSplit.Flow.Frame
import CoordSplit.Insn.Basic

/-!
# Abstract execution

`step` is the effect of one instruction on a frame: the frame after it, and the values that the
instruction used. Instructions that only move values on the stack, `dup` and its kin and `swap`, use
none of them.
-/

set_option autoImplicit false

namespace CoordSplit

/-- Why an instruction cannot be executed on a frame. -/
inductive StepError where
  | badArrayElement (code : Int32)
  | badConstant (value : Constant)
  | increment (slot : Int)
  | subroutine
  | field (member : Member) (cause : DescriptorError)
  | call (member : Member) (cause : DescriptorError)
  | multiArray (cause : DescriptorError)
  | unsupported (insn : Insn)
  | unsupportedOp (op : Opcode)
  | unsetSlot (op : Opcode) (slot : Int)
  | wrongWidth (op : Opcode) (slot : Int) (t : ValueType)
  | shuffle (op : Opcode)
  | expected (want got : ValueType)
  | underflow
  | splitsWide

namespace StepError

/-- The wording of the cause. -/
def message : StepError → Text
  | .badArrayElement c => "bad newarray type " ++ Text.ofInt c.toInt
  | .badConstant c => "bad constant " ++ c.kindName
  | .increment s => "iinc of non-int slot " ++ Text.ofInt s
  | .subroutine => "subroutines are not supported"
  | .field m e => Text.concat ["field ", m.key, ": ", e.message]
  | .call m e => Text.concat ["call ", m.key, ": ", e.message]
  | .multiArray e => "multianewarray: " ++ e.message
  | .unsupported x => Text.concat ["unsupported instruction ", x.opcode.name, " (", x.formName, ")"]
  | .unsupportedOp op => "unsupported instruction " ++ op.name
  | .unsetSlot op s => Text.concat [op.name, " of unset slot ", Text.ofInt s]
  | .wrongWidth op s t => Text.concat [op.name, " of slot ", Text.ofInt s, " holding ", t.desc]
  | .shuffle op => op.name ++ ": bad operand stack"
  | .expected t u => Text.concat ["expected ", t.desc, " on stack, got ", u.desc]
  | .underflow => "stack underflow"
  | .splitsWide => "pop splits a wide value"

end StepError

/-- What an opcode without operands takes from the stack, bottom first, and what it gives. -/
structure PlainSignature where
  takes : List ValueType
  gives : Option ValueType

namespace Opcode

/-- The signature of an opcode without operands that neither moves nor just drops values. -/
def signature? : Opcode → Option PlainSignature
  | .nop | .returnVoid => some ⟨[], none⟩
  | .aconstNull => some ⟨[], some .null⟩
  | .iconstM1 | .iconst0 | .iconst1 | .iconst2 | .iconst3 | .iconst4 | .iconst5 =>
    some ⟨[], some .int⟩
  | .lconst0 | .lconst1 => some ⟨[], some .long⟩
  | .fconst0 | .fconst1 | .fconst2 => some ⟨[], some .float⟩
  | .dconst0 | .dconst1 => some ⟨[], some .double⟩
  | .iaload | .baload | .caload | .saload => some ⟨[.objectClass, .int], some .int⟩
  | .laload => some ⟨[.objectClass, .int], some .long⟩
  | .faload => some ⟨[.objectClass, .int], some .float⟩
  | .daload => some ⟨[.objectClass, .int], some .double⟩
  | .aaload => some ⟨[.objectClass, .int], some .objectClass⟩
  | .iastore | .bastore | .castore | .sastore => some ⟨[.objectClass, .int, .int], none⟩
  | .lastore => some ⟨[.objectClass, .int, .long], none⟩
  | .fastore => some ⟨[.objectClass, .int, .float], none⟩
  | .dastore => some ⟨[.objectClass, .int, .double], none⟩
  | .aastore => some ⟨[.objectClass, .int, .objectClass], none⟩
  | .iadd | .isub | .imul | .idiv | .irem | .ishl | .ishr | .iushr | .iand | .ior | .ixor =>
    some ⟨[.int, .int], some .int⟩
  | .ladd | .lsub | .lmul | .ldiv | .lrem | .land | .lor | .lxor =>
    some ⟨[.long, .long], some .long⟩
  | .fadd | .fsub | .fmul | .fdiv | .frem => some ⟨[.float, .float], some .float⟩
  | .dadd | .dsub | .dmul | .ddiv | .drem => some ⟨[.double, .double], some .double⟩
  | .lshl | .lshr | .lushr => some ⟨[.long, .int], some .long⟩
  | .ineg => some ⟨[.int], some .int⟩
  | .lneg => some ⟨[.long], some .long⟩
  | .fneg => some ⟨[.float], some .float⟩
  | .dneg => some ⟨[.double], some .double⟩
  | .i2l => some ⟨[.int], some .long⟩
  | .i2f => some ⟨[.int], some .float⟩
  | .i2d => some ⟨[.int], some .double⟩
  | .l2i => some ⟨[.long], some .int⟩
  | .l2f => some ⟨[.long], some .float⟩
  | .l2d => some ⟨[.long], some .double⟩
  | .f2i => some ⟨[.float], some .int⟩
  | .f2l => some ⟨[.float], some .long⟩
  | .f2d => some ⟨[.float], some .double⟩
  | .d2i => some ⟨[.double], some .int⟩
  | .d2l => some ⟨[.double], some .long⟩
  | .d2f => some ⟨[.double], some .float⟩
  | .i2b => some ⟨[.int], some (.prim .byte)⟩
  | .i2c => some ⟨[.int], some (.prim .char)⟩
  | .i2s => some ⟨[.int], some (.prim .short)⟩
  | .lcmp => some ⟨[.long, .long], some .int⟩
  | .fcmpl | .fcmpg => some ⟨[.float, .float], some .int⟩
  | .dcmpl | .dcmpg => some ⟨[.double, .double], some .int⟩
  | .arraylength => some ⟨[.objectClass], some .int⟩
  | .athrow => some ⟨[.throwable], none⟩
  | .monitorenter | .monitorexit | .areturn => some ⟨[.objectClass], none⟩
  | .ireturn => some ⟨[.int], none⟩
  | .lreturn => some ⟨[.long], none⟩
  | .freturn => some ⟨[.float], none⟩
  | .dreturn => some ⟨[.double], none⟩
  | _ => none

/-- What a conditional branch takes from the stack, bottom first. -/
def branchTakes? : Opcode → Option (List ValueType)
  | .goto => some []
  | .ifIcmpeq | .ifIcmpne | .ifIcmplt | .ifIcmpge | .ifIcmpgt | .ifIcmple => some [.int, .int]
  | .ifAcmpeq | .ifAcmpne => some [.objectClass, .objectClass]
  | .ifnull | .ifnonnull => some [.objectClass]
  | .ifeq | .ifne | .iflt | .ifge | .ifgt | .ifle => some [.int]
  | _ => none

end Opcode

namespace Step

/-- The value on top of the stack, whose width must be that of `t`, and the rest. -/
def pop (t : ValueType) : List Value → Except StepError (Value × List Value)
  | [] => .error .underflow
  | v :: rest => if v.size ≠ t.size then .error (.expected t v.type) else .ok (v, rest)

/-- The values on top of the stack with the widths of the given types, top first, and the rest. -/
def popAll : List ValueType → List Value → Except StepError (List Value × List Value)
  | [], stack => .ok ([], stack)
  | t :: ts, stack => do
    let (v, rest) ← pop t stack
    let (vs, rest) ← popAll ts rest
    return (v :: vs, rest)

/-- The values with the widths of the given types, bottom first, and the rest of the stack. -/
def consume (ts : List ValueType) (stack : List Value) :
    Except StepError (List Value × List Value) := do
  let (vs, rest) ← popAll ts.reverse stack
  return (vs.reverse, rest)

/-- The given number of int-wide values on top of the stack, top first, and the rest. -/
def popInts : Nat → List Value → Except StepError (List Value × List Value)
  | 0, stack => .ok ([], stack)
  | n + 1, stack =>
    match pop .int stack with
    | .error e => .error e
    | .ok (v, rest) =>
      match popInts n rest with
      | .error e => .error e
      | .ok (vs, rest) => .ok (v :: vs, rest)

/-- The values that make up the given number of words on top of the stack, top first, and the rest. -/
def popWords (n : Int) : List Value → Except StepError (List Value × List Value)
  | [] => if n = 0 then .ok ([], []) else if n < 0 then .error .splitsWide else .error .underflow
  | v :: rest =>
    if n = 0 then .ok ([], v :: rest)
    else if n < 0 then .error .splitsWide
    else match popWords (n - v.size) rest with
      | .error e => .error e
      | .ok (vs, rest) => .ok (v :: vs, rest)

/-- The stack after `swap` or one of the `dup` operations. Wide values count as two words, and no
operation may cut one in half. -/
def shuffle (op : Opcode) (stack : List Value) : Except StepError (List Value) :=
  let bad : Except StepError (List Value) := .error (.shuffle op)
  match stack with
  | [] => .error .underflow
  | a :: rest =>
    match op with
    | .dup => if a.isWide then bad else .ok (a :: a :: rest)
    | .swap =>
      match rest with
      | [] => .error .underflow
      | b :: rest => if a.isWide || b.isWide then bad else .ok (b :: a :: rest)
    | .dupX1 =>
      match rest with
      | [] => .error .underflow
      | b :: rest => if a.isWide || b.isWide then bad else .ok (a :: b :: a :: rest)
    | .dupX2 =>
      if a.isWide then bad
      else match rest with
        | [] => .error .underflow
        | b :: rest =>
          if b.isWide then .ok (a :: b :: a :: rest)
          else match rest with
            | [] => bad
            | c :: rest => if c.isWide then bad else .ok (a :: b :: c :: a :: rest)
    | .dup2 =>
      if a.isWide then .ok (a :: a :: rest)
      else match rest with
        | [] => bad
        | b :: rest => if b.isWide then bad else .ok (a :: b :: a :: b :: rest)
    | .dup2X1 =>
      match rest with
      | [] => bad
      | b :: rest =>
        if b.isWide then bad
        else if a.isWide then .ok (a :: b :: a :: rest)
        else match rest with
          | [] => bad
          | c :: rest => if c.isWide then bad else .ok (a :: b :: c :: a :: b :: rest)
    | .dup2X2 =>
      match rest with
      | [] => bad
      | b :: rest =>
        if a.isWide && b.isWide then .ok (a :: b :: a :: rest)
        else if b.isWide then bad
        else match rest with
          | [] => bad
          | c :: rest =>
            if a.isWide then (if c.isWide then bad else .ok (a :: b :: c :: a :: rest))
            else if c.isWide then .ok (a :: b :: c :: a :: b :: rest)
            else match rest with
              | [] => bad
              | d :: rest => if d.isWide then bad else .ok (a :: b :: c :: d :: a :: b :: rest)
    | _ => bad

/-- Whether the opcode only moves values on the stack. -/
def isShuffle : Opcode → Bool
  | .dup | .dupX1 | .dupX2 | .dup2 | .dup2X1 | .dup2X2 | .swap => true
  | _ => false

/-- The locals with a value stored in a slot. A wide value that started one slot below is cut and so
becomes unset, and the second slot of a wide value is unset. -/
def setLocal (locals : List (Option Value)) (slot : Nat) (v : Value) : List (Option Value) :=
  let padded := locals ++ List.replicate (slot + v.size - locals.length) none
  let below := match slot with
    | 0 => padded
    | k + 1 =>
      match (padded[k]?).join with
      | some w => if w.isWide then padded.set k none else padded
      | none => padded
  let stored := below.set slot (some v)
  if v.isWide then stored.set (slot + 1) none else stored

end Step

/-- The frame after an instruction, and the values that the instruction used. -/
structure StepResult where
  frame : Frame
  used : List Value

namespace Step

/-- The frame with some values taken from the stack and one put on it. -/
def replace (f : Frame) (takes : List ValueType) (gives : Option Value) :
    Except StepError StepResult := do
  let (used, rest) ← consume takes f.stack
  let stack := match gives with
    | some v => v :: rest
    | none => rest
  return ⟨{ f with stack }, used⟩

/-- The effect of an opcode without operands. -/
def plain (id : Nat) (op : Opcode) (f : Frame) : Except StepError StepResult :=
  if op = .pop ∨ op = .pop2 then do
    let (used, rest) ← popWords (if op = .pop then 1 else 2) f.stack
    return ⟨{ f with stack := rest }, used⟩
  else if isShuffle op then do
    let stack ← shuffle op f.stack
    return ⟨{ f with stack }, []⟩
  else
    match op.signature? with
    | none => .error (.unsupportedOp op)
    | some g => replace f g.takes (g.gives.map (Value.produced · id))

/-- The effect of a load or a store of a local slot. -/
def slotAccess (id : Nat) (op : Opcode) (slot : Int) (f : Frame) : Outcome StepError StepResult :=
  match op.varType? with
  | none => Outcome.fail (.unsupportedOp op)
  | some t =>
    if op.isLoad then
      match f.localAt slot with
      | none => Outcome.fail (.unsetSlot op slot)
      | some v =>
        if v.size ≠ t.size ∧ v.type ≠ .top then Outcome.fail (.wrongWidth op slot v.type)
        else
          let t := if op = .aload ∨ op = .iload then v.type else t
          let pushed : Value := ⟨t, .singleton id, .singleton slot.toNat⟩
          .ok ⟨{ f with stack := pushed :: f.stack }, []⟩
    else
      match pop t f.stack with
      | .error e => Outcome.fail e
      | .ok (v, rest) =>
        match slot with
        | .negSucc _ => .error (.fault .key)
        | .ofNat k =>
          .ok ⟨⟨rest, setLocal f.locals k ⟨v.type, v.prod, .singleton k⟩⟩, [v]⟩

/-- The effect of an access to a field of type `t`. -/
def field (id : Nat) (op : Opcode) (m : Member) (t : ValueType) (f : Frame) :
    Except StepError StepResult :=
  match op with
  | .getstatic => replace f [] (some (.produced t id))
  | .putstatic => replace f [t] none
  | .getfield => replace f [.objectClass] (some (.produced t id))
  | .putfield => replace f [.objectClass, t] none
  | _ => .error (.unsupported (.field op m))

/-- The effect of an operation on a class. -/
def type (id : Nat) (op : Opcode) (name : Text) (f : Frame) : Except StepError StepResult :=
  match op with
  | .new => replace f [] (some (.produced (.object name) id))
  | .anewarray => replace f [.int] (some (.produced (.array (.ofClassName name)) id))
  | .checkcast => replace f [.objectClass] (some (.produced (.ofClassName name) id))
  | .instanceof => replace f [.objectClass] (some (.produced .int id))
  | _ => .error (.unsupported (.type op name))

end Step

/-- The effect of the instruction `x` with id `id` on a frame. -/
def step (id : Nat) (x : Insn) (f : Frame) : Outcome StepError StepResult :=
  match x with
  | .label => .ok ⟨f, []⟩
  | .plain op => Outcome.lift (Step.plain id op f)
  | .push op value =>
    if op = .newarray then
      match Step.pop .int f.stack with
      | .error e => Outcome.fail e
      | .ok (_, rest) =>
        match arrayElementType? value with
        | none => Outcome.fail (.badArrayElement value)
        | some t => .ok ⟨{ f with stack := .produced (.array t) id :: rest }, []⟩
    else .ok ⟨{ f with stack := .produced .int id :: f.stack }, []⟩
  | .ldc c =>
    match c.type? with
    | none => Outcome.fail (.badConstant c)
    | some t => .ok ⟨{ f with stack := .produced t id :: f.stack }, []⟩
  | .var op slot => Step.slotAccess id op slot f
  | .iinc slot _ =>
    match f.localAt slot with
    | none => Outcome.fail (.increment slot)
    | some v =>
      if v.type.isInt then
        let sum : Value := ⟨.int, .singleton id, .singleton slot.toNat⟩
        .ok ⟨{ f with locals := f.locals.set slot.toNat (some sum) }, [v]⟩
      else Outcome.fail (.increment slot)
  | .jump op _ =>
    if op = .jsr then Outcome.fail .subroutine
    else match op.branchTakes? with
      | some takes => Outcome.lift (Step.replace f takes none)
      | none => Outcome.fail (.unsupported x)
  | .switch _ _ _ _ => Outcome.lift (Step.replace f [.int] none)
  | .field op m =>
    match ValueType.parse m.desc with
    | .error e => Outcome.fail (.field m e)
    | .ok t => Outcome.lift (Step.field id op m t f)
  | .call op m _ =>
    match MethodType.parse m.desc with
    | .error e => Outcome.fail (.call m e)
    | .ok t =>
      let takes := if op.hasReceiver then .objectClass :: t.params else t.params
      let gives := if t.result = .void then none else some (Value.produced t.result id)
      Outcome.lift (Step.replace f takes gives)
  | .type op name => Outcome.lift (Step.type id op name f)
  | .multiArray desc dims =>
    match ValueType.parse desc with
    | .error e => Outcome.fail (.multiArray e)
    | .ok t =>
      match dims with
      | .negSucc _ => .error (.fault .length)
      | .ofNat n =>
        match Step.popInts n f.stack with
        | .error e => Outcome.fail e
        | .ok (used, rest) => .ok ⟨{ f with stack := .produced t id :: rest }, used.reverse⟩

end CoordSplit
