import CoordSplit.Record.Basic

/-!
# The class of a record

Labels may be referred to before they stand in the code, so they are collected first. An instruction
without an operand of its own form that names a target is a jump.
-/

set_option autoImplicit false

namespace CoordSplit

-- Powers are the built-in ones, whatever else is in scope.
attribute [local instance (2000)] instPowNat

/-- The ids of the labels of a code by number. -/
abbrev LabelIds := List (Int × InsnId)

/-- The id of a label. -/
def LabelIds.get (ls : LabelIds) (n : Int) : Except RecordError InsnId :=
  match ls.lookup n with
  | some id => .ok id
  | none => .error (.undefinedLabel n)

/-- The constant that a record describes. -/
def ConstantRecord.toConstant (c : ConstantRecord) : Except RecordError Constant :=
  let signed (bits : Nat) : Except RecordError Int :=
    match Text.intValue (.fixed 10) bits c.value with
    | .ok v => .ok v
    | .error e => .error (.badNumber true c.value e)
  let unsigned (bits : Nat) : Except RecordError Nat :=
    match Text.natValue (.fixed 16) (2 ^ bits - 1) c.value with
    | .ok v => .ok v
    | .error e => .error (.badNumber false c.value e)
  if c.kind = ("int" : Text) then (signed 32).map fun v => .int (Int32.ofInt v)
  else if c.kind = ("long" : Text) then (signed 64).map fun v => .long (Int64.ofInt v)
  else if c.kind = ("float" : Text) then (unsigned 32).map fun v => .float (UInt32.ofNat v)
  else if c.kind = ("double" : Text) then (unsigned 64).map fun v => .double (UInt64.ofNat v)
  else if c.kind = ("string" : Text) then .ok (.string c.value)
  else if c.kind = ("class" : Text) then .ok (.type (.ofClassName c.value))
  else .error (.unknownKind c.kind)

namespace InsnRecord

/-- Whether a record is that of a label. -/
def isLabel (r : InsnRecord) : Bool := r.op = Opcode.label.name

/-- The instruction that a record describes, labels apart. -/
def toInsn (ls : LabelIds) (r : InsnRecord) : Except RecordError Insn :=
  match Opcode.ofName? r.op with
  | none => .error (.unknownInsn r.op)
  | some op =>
    match op with
    | .iload | .lload | .fload | .dload | .aload | .istore | .lstore | .fstore | .dstore | .astore
    | .ret => .ok (.var op r.slot)
    | .bipush | .sipush | .newarray => .ok (.push op (Int32.ofInt r.int))
    | .ldc =>
      match r.const with
      | none => .error .constantExpected
      | some c => (inPart "ldc" c.toConstant).map .ldc
    | .iinc => .ok (.iinc r.slot (Int32.ofInt r.int))
    | .getstatic | .putstatic | .getfield | .putfield => .ok (.field op ⟨r.owner, r.name, r.desc⟩)
    | .invokevirtual | .invokespecial | .invokestatic | .invokeinterface | .invokedynamic =>
      .ok (.call op ⟨r.owner, r.name, r.desc⟩ r.itf)
    | .new | .anewarray | .checkcast | .instanceof => .ok (.type op r.desc)
    | .multianewarray => .ok (.multiArray r.desc r.int)
    | .tableswitch | .lookupswitch => do
      let d ← ls.get r.target
      let ts ← r.targets.mapM ls.get
      return .switch op (r.keys.map Int32.ofInt) d ts
    | _ =>
      if r.target = 0 then .ok (.plain op) else (ls.get r.target).map (.jump op)

end InsnRecord

namespace MethodRecord

/-- The labels of a code from index `i` on, given those before. The index is also the id. -/
def collectLabels : Nat → List InsnRecord → LabelIds → Except RecordError LabelIds
  | _, [], ls => .ok ls
  | i, r :: rest, ls =>
    if r.isLabel then
      if r.label = 0 ∨ (ls.lookup r.label).isSome then .error (.badLabel i r.label)
      else collectLabels (i + 1) rest ((r.label, (i : Int)) :: ls)
    else collectLabels (i + 1) rest ls

/-- The instructions of a code from index `i` on. -/
def toInsns (ls : LabelIds) : Nat → List InsnRecord → Except RecordError (List Insn)
  | _, [] => .ok []
  | i, r :: rest => do
    let x ← if r.isLabel then pure .label
      else inPart (Text.concat ["code ", Text.ofNat i]) (r.toInsn ls)
    let xs ← toInsns ls (i + 1) rest
    return x :: xs

/-- The handlers from number `i` on. -/
def toHandlers (ls : LabelIds) : Nat → List HandlerRecord → Except RecordError (List Handler)
  | _, [] => .ok []
  | i, h :: rest => do
    let x ← inPart (Text.concat ["handler ", Text.ofNat i]) do
      let start ← ls.get h.start
      let stop ← ls.get h.stop
      let handler ← ls.get h.handler
      return (⟨h.type, start, stop, handler⟩ : Handler)
    let xs ← toHandlers ls (i + 1) rest
    return x :: xs

/-- The flags that a list of names describes. -/
def toAccess : List Text → Except RecordError Access
  | [] => .ok .none
  | f :: rest =>
    match Access.ofName? f with
    | none => .error (.unknownAccess f)
    | some a => (toAccess rest).map a.union

/-- The method that a record describes. -/
def toMethod (r : MethodRecord) : Except RecordError Method := do
  match MethodType.parse r.desc with
  | .error e => throw (.descriptor e)
  | .ok _ =>
    let access ← toAccess r.access
    let ls ← collectLabels 0 r.code []
    let code ← toInsns ls 0 r.code
    let locals ← r.locals.mapM fun l => inPart (Text.concat ["local ", l.name]) do
      let start ← ls.get l.start
      let stop ← ls.get l.stop
      return (⟨l.name, l.desc, l.signature, l.slot, start, stop⟩ : LocalVar)
    let handlers ← toHandlers ls 0 r.handlers
    return {
      name := r.name
      desc := r.desc
      access := access
      code := .ofList code
      locals := locals
      handlers := handlers
      maxStack := r.maxStack
      maxLocals := r.maxLocals }

end MethodRecord

/-- The class that a record describes. -/
def ClassRecord.toClass (r : ClassRecord) : Except RecordError ClassModel := do
  let methods ← r.methods.mapM fun m =>
    inPart (Text.concat ["method ", m.name, m.desc]) m.toMethod
  return ⟨r.name, r.parent, methods⟩

end CoordSplit
