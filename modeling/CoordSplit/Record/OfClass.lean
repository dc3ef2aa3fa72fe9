import CoordSplit.Record.Basic

/-!
# The record of a class

Every class has a record, unless it refers to instructions that are not labels of its code, or holds a
constant of a kind that records cannot hold.
-/

set_option autoImplicit false

namespace CoordSplit

/-- The numbers of the labels of a code by id. -/
abbrev LabelNumbers := List (InsnId × Int)

/-- The labels among some instructions, numbered from `n` on. -/
def labelNumbers (n : Int) : List (InsnId × Insn) → LabelNumbers
  | [] => []
  | (id, x) :: rest => if x.isLabel then (id, n) :: labelNumbers (n + 1) rest else labelNumbers n rest

/-- The number of a label. -/
def LabelNumbers.get (ls : LabelNumbers) (id : InsnId) : Except RecordError Int :=
  match ls.lookup id with
  | some n => .ok n
  | none => .error (.notLabel id)

/-- The record of a constant. -/
def ConstantRecord.ofConstant : Constant → Except RecordError ConstantRecord
  | .int v => .ok ⟨"int", Text.ofInt v.toInt⟩
  | .long v => .ok ⟨"long", Text.ofInt v.toInt⟩
  | .float bits => .ok ⟨"float", Text.hex bits.toNat⟩
  | .double bits => .ok ⟨"double", Text.hex bits.toNat⟩
  | .string s => .ok ⟨"string", s⟩
  | .type (.object name) => .ok ⟨"class", name⟩
  | .type (.array elem) => .ok ⟨"class", (ValueType.array elem).desc⟩
  | c => .error (.unsupportedConstant c)

/-- The record of an instruction. -/
def InsnRecord.ofInsn (ls : LabelNumbers) (id : InsnId) (x : Insn) : Except RecordError InsnRecord :=
  let r : InsnRecord := { op := x.opcode.name }
  match x with
  | .label => .ok { r with label := (ls.lookup id).getD 0 }
  | .plain _ => .ok r
  | .push _ v => .ok { r with int := v.toInt }
  | .ldc c => do
    let c ← ConstantRecord.ofConstant c
    return { r with const := some c }
  | .var _ slot => .ok { r with slot := slot }
  | .iinc slot delta => .ok { r with slot := slot, int := delta.toInt }
  | .jump _ target => do
    let t ← ls.get target
    return { r with target := t }
  | .switch _ keys otherwise targets => do
    let d ← ls.get otherwise
    let ts ← targets.mapM ls.get
    return { r with target := d, targets := ts, keys := keys.map Int32.toInt }
  | .field _ m => .ok { r with owner := m.owner, name := m.name, desc := m.desc }
  | .call _ m itf => .ok { r with owner := m.owner, name := m.name, desc := m.desc, itf := itf }
  | .type _ name => .ok { r with desc := name }
  | .multiArray desc dims => .ok { r with desc := desc, int := dims }

/-- The record of an entry of the local variable table. -/
def LocalRecord.ofLocal (ls : LabelNumbers) (l : LocalVar) : Except RecordError LocalRecord :=
  inPart (Text.concat ["local ", l.name]) do
    let start ← ls.get l.start
    let stop ← ls.get l.stop
    return ⟨l.name, l.desc, l.signature, l.slot, start, stop⟩

/-- The records of some handlers, the first of which has the number `i`. -/
def HandlerRecord.ofHandlers (ls : LabelNumbers) : Nat → List Handler →
    Except RecordError (List HandlerRecord)
  | _, [] => .ok []
  | i, h :: rest => do
    let r ← inPart (Text.concat ["handler ", Text.ofNat i]) do
      let start ← ls.get h.start
      let stop ← ls.get h.stop
      let handler ← ls.get h.handler
      return (⟨h.type, start, stop, handler⟩ : HandlerRecord)
    let rs ← ofHandlers ls (i + 1) rest
    return r :: rs

/-- The record of a method. -/
def MethodRecord.ofMethod (m : Method) : Except RecordError MethodRecord := do
  let lines := m.code.listing
  let ls := labelNumbers 1 lines
  let code ← lines.mapM fun p =>
    inPart (Text.concat ["insn ", Text.ofInt p.1]) (InsnRecord.ofInsn ls p.1 p.2)
  let locals ← m.locals.mapM (LocalRecord.ofLocal ls)
  let handlers ← HandlerRecord.ofHandlers ls 0 m.handlers
  return ⟨m.name, m.desc, m.access.names, m.maxStack, m.maxLocals, code, locals, handlers⟩

/-- The record of a class. -/
def ClassRecord.ofClass (c : ClassModel) : Except RecordError ClassRecord := do
  let methods ← c.methods.mapM fun m =>
    inPart (Text.concat ["method ", m.title]) (MethodRecord.ofMethod m)
  return ⟨c.name, c.parent, methods⟩

end CoordSplit
