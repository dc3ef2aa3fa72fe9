import CoordSplit.Expansion
import CoordSplit.Pattern

/-!
# Converting calls

A call that takes a packed coordinate is changed to take its three parts. What pushed the coordinate is
changed to push the parts, which is possible if it is a load of an expanded slot, the sentinel, or a call
whose result can be had in parts, and if nothing else uses the coordinate.

The frames are those of the method before any change. Instructions that are not in the code any more
are left alone.
-/

set_option autoImplicit false

namespace CoordSplit

/-- Why a packed coordinate cannot be pushed in parts. -/
inductive ProducerError where
  | missing
  | replaced (id : InsnId)
  | shared (id : InsnId) (users : IndexSet)
  | unable (id : InsnId) (op : Opcode)

/-- The wording of the cause. -/
def ProducerError.message : ProducerError → Text
  | .missing => "value has no producer"
  | .replaced id => Text.concat ["producer ", Text.ofInt id, " was rewritten"]
  | .shared id s => Text.concat ["producer ", Text.ofInt id, " has other consumers: ", s.render]
  | .unable id op =>
    Text.concat ["producer ", Text.ofInt id, " (", op.name, ") can't emit narrow values"]

/-- Why a call cannot be converted. -/
inductive ConversionError where
  | staticMismatch (id : InsnId) (isStatic : Bool) (op : Opcode)
  | args (id : InsnId) (cause : CallError)
  | receiver (id : InsnId) (method : Member)
  | argument (id : InsnId) (index : Int) (method : Member) (cause : ProducerError)
  | unpack (id : InsnId) (cause : ProducerError)
  | descriptor (id : InsnId) (method : Member) (cause : DescriptorError)
  | split (id : InsnId) (method : Member) (cause : MethodType.SplitError)
  | replacement (id : InsnId) (method : Member) (derived listed : Text)
  | remove (cause : Code.RemoveError)

namespace ConversionError

/-- The failure as it is reported. -/
def diagnostic : ConversionError → Diagnostic
  | .staticMismatch id s op => .ofInconsistent id (Text.concat
      ["catalog says static=", Text.ofBool s, ", called with ", op.name])
  | .args id e => .ofMalformed id e.message
  | .receiver id m => .ofInconsistent id ("packed receiver of " ++ m.key)
  | .argument id i m e => .ofInconsistent id (Text.concat
      ["argument ", Text.ofInt i, " of ", m.key, ": ", e.message])
  | .unpack id e => .ofInconsistent id ("unpack: " ++ e.message)
  | .descriptor id m e => .ofMalformed id (Text.concat ["call ", m.key, ": ", e.message])
  | .split id m e => .ofInconsistent id (Text.concat ["call ", m.key, ": ", e.message])
  | .replacement id m d l => .ofInconsistent id (Text.concat
      ["call ", m.key, ": derived descriptor ", d, ", catalog has ", l])
  | .remove e => .plain e.message

end ConversionError

namespace ExpansionContext

/-- Whether an instruction can be changed to push the parts of the coordinate that it pushes. -/
def isEmitter (c : ExpansionContext) (x : Insn) : Bool :=
  c.isOperand x || match x with
    | .call op m _ =>
      match c.catalog.lookup m with
      | some e => e.isProducer && e.pack == (op = .invokestatic)
      | none => false
    | _ => false

/-- Whether an instruction pushes a coordinate that only `call` uses, and can push its parts. -/
def checkProducer (c : ExpansionContext) (a : Analysis) (code : Code) (call id : InsnId) :
    Except ProducerError Unit :=
  if !code.isLive id then .error (.replaced id)
  else
    let users := a.consumersOf id
    if users.size ≠ 1 ∨ !users.contains call then .error (.shared id users)
    else match code.get? id with
      | some x => if c.isEmitter x then .ok () else .error (.unable id x.opcode)
      | none => .error (.replaced id)

/-- Whether everything that may have pushed a value can push its parts, and only for `call`. -/
def checkProducers (c : ExpansionContext) (a : Analysis) (code : Code) (call : InsnId) (v : Value) :
    Except ProducerError Unit :=
  if v.prod.isEmpty then .error .missing
  else v.prod.toList.forM fun (id : Nat) => c.checkProducer a code call id

/-- What takes one of three ints on the stack and drops the others; it starts with the instructions to
put before the last one. -/
def keepOne : Axis → List Opcode × Opcode
  | .x => ([.pop], .pop)
  | .y => ([.pop, .swap], .pop)
  | .z => ([.swap, .pop, .swap], .pop)

/-- What asks the receiver on the stack for a part, and leaves the receiver above the part. -/
def keepReceiver (e : Entry) (axis : Axis) : List Insn :=
  [.plain .dup, .ofAccessor (e.axisMember axis), .plain .swap]

/-- The code with the instruction `id` replaced by some instructions, the last of which takes its id. -/
def becomes (code : Code) (id : InsnId) (before : List Insn) (last : Insn) :
    Outcome ConversionError Code := do
  let (code, fresh) := code.insertBefore id before
  let _ ← Outcome.ofFault fresh
  Outcome.ofFault (code.set id last)

/-- A producer is changed to push one part of its coordinate, or all three. -/
def convertProducer (c : ExpansionContext) (part : Option Axis) (code : Code) (id : InsnId) :
    Outcome ConversionError Code := do
  let x ← Outcome.ofFault (code.get id)
  if c.isOperand x then
    match part with
    | some axis => Outcome.ofFault (code.set id (c.narrow x axis))
    | none => becomes code id [c.narrow x .x, c.narrow x .y] (c.narrow x .z)
  else match x with
    | .call _ m _ =>
      match c.catalog.lookup m with
      | none => .error (.fault .form)
      | some e =>
        if e.pack then
          match part with
          | some axis => becomes code id ((keepOne axis).1.map .plain) (.plain (keepOne axis).2)
          | none => Outcome.ofExcept .remove (code.remove id)
        else
          match part with
          | some axis => Outcome.ofFault (code.set id (.ofAccessor (e.axisMember axis)))
          | none => becomes code id (keepReceiver e .x ++ keepReceiver e .y) (.ofAccessor (e.axisMember .z))
    | _ => .error (.fault .form)

/-- All producers of a value are changed. -/
def convertValue (c : ExpansionContext) (part : Option Axis) (code : Code) (v : Value) :
    Outcome ConversionError Code :=
  v.prod.toList.foldlM (fun code (id : Nat) => c.convertProducer part code id) code

/-- A call that takes one axis out of a coordinate from an expanded slot goes away: the coordinate's
producers push that part instead. -/
def convertUnpack (c : ExpansionContext) (a : Analysis) (expanded : IndexSet) (code : Code) (id : InsnId)
    (f : Frame) (axis : Axis) : Outcome ConversionError (Option Code) :=
  match f.stack with
  | [] => .ok none
  | v :: _ =>
    if !v.isPacked expanded then .ok none
    else do
      Outcome.ofExcept (.unpack id) (c.checkProducers a code id v)
      let code ← c.convertValue (some axis) code v
      let code ← Outcome.ofExcept .remove (code.remove id)
      return some code

/-- The arguments to convert, with their positions, from position `p` on: those that the catalog knows to
be packed, and those that come from expanded slots. -/
def packedArgs (c : ExpansionContext) (a : Analysis) (expanded : IndexSet) (code : Code) (id : InsnId)
    (m : Member) (receivers : Nat) (known : List Int) : Nat → List Value →
    Except ConversionError (List (Int × Value))
  | _, [] => .ok []
  | p, v :: rest =>
    if known.contains (p : Int) || v.isPacked expanded then
      if p < receivers then .error (.receiver id m)
      else match c.checkProducers a code id v with
        | .error e => .error (.argument id (p - receivers) m e)
        | .ok () => (packedArgs c a expanded code id m receivers known (p + 1) rest).map
            (((p : Int) - receivers, v) :: ·)
    else packedArgs c a expanded code id m receivers known (p + 1) rest

/-- The method to call with the arguments at the given indices in parts. -/
def replacementOf (id : InsnId) (m : Member) (entry : Option Entry) (indices : List Int) :
    Except ConversionError Member :=
  match MethodType.parse m.desc with
  | .error e => .error (.descriptor id m e)
  | .ok t =>
    match t.split indices with
    | .error e => .error (.split id m e)
    | .ok t =>
      match entry with
      | none => .ok { m with desc := t.desc }
      | some e =>
        if t.desc ≠ e.replacement.desc then .error (.replacement id m t.desc e.replacement.desc)
        else .ok { e.replacement with desc := t.desc }

/-- A call is converted, if it has packed arguments. -/
def convertCall (c : ExpansionContext) (a : Analysis) (expanded : IndexSet) (code : Code) (id : InsnId)
    (op : Opcode) (m : Member) (itf : Bool) (f : Frame) : Outcome ConversionError (Option Code) :=
  match c.catalog.unpackAxis? m with
  | some axis => c.convertUnpack a expanded code id f axis
  | none =>
    let entry := c.catalog.lookup m
    if (entry.map Entry.returnsPacked).getD false then .ok none
    else do
      if let some e := entry then
        if e.isStatic == op.hasReceiver then Outcome.fail (.staticMismatch id e.isStatic op)
      let args ← Outcome.ofExcept (.args id) (f.callArgs op m)
      let receivers := if op.hasReceiver then 1 else 0
      let known := (entry.map Entry.positions).getD []
      let packed ← Outcome.lift (c.packedArgs a expanded code id m receivers known 0 args)
      if packed.isEmpty then return none
      let target ← Outcome.lift (replacementOf id m entry (packed.map Prod.fst))
      let code ← packed.foldlM (fun code p => c.convertValue none code p.2) code
      let code ← Outcome.ofFault (code.set id (.call op target itf))
      return some code

end ExpansionContext

/-- How far converting calls has come. -/
structure CallRun where
  code : Code
  /-- The number of calls that were converted. -/
  count : Nat
  failed : Option (Failure ConversionError)

namespace CallRun

/-- The calls among some instructions are converted one after the other. -/
def convertAll (c : ExpansionContext) (a : Analysis) (expanded : IndexSet) :
    List ((InsnId × Insn) × Frame) → CallRun → CallRun
  | [], r => r
  | ((id, _), f) :: rest, r =>
    match if r.code.isLive id then r.code.get? id else none with
    | some (.call op m itf) =>
      match c.convertCall a expanded r.code id op m itf f with
      | .error e => { r with failed := some e }
      | .ok none => convertAll c a expanded rest r
      | .ok (some code) => convertAll c a expanded rest { r with code := code, count := r.count + 1 }
    | _ => convertAll c a expanded rest r

/-- The calls of a code are converted, given the analysis of the method before any change. -/
def ofCode (c : ExpansionContext) (a : Analysis) (expanded : IndexSet) (code : Code) : CallRun :=
  convertAll c a expanded a.reachable ⟨code, 0, none⟩

end CallRun

end CoordSplit
