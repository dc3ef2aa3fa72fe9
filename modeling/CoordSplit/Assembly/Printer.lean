import CoordSplit.Method
import CoordSplit.Number.FloatText

/-!
# Printing assembly text

Classes, methods and single instructions as assembly text. Labels are named `L0`, `L1`, … in the order
in which they stand in the code. Printing fails on references to instructions that are no labels, which
the text could not express.
-/

set_option autoImplicit false

namespace CoordSplit.Assembly

/-- Why something has no assembly text. -/
inductive PrintError where
  | unsupportedInsn (x : Insn)
  | unsupportedConstant (c : Constant)
  | notLabel (id : InsnId)
  /-- An error in a part; the text names the part. -/
  | within (part : Text) (cause : PrintError)

namespace PrintError

/-- The wording of the cause. -/
def message : PrintError → Text
  | .unsupportedInsn x => "unsupported instruction: " ++ x.formName
  | .unsupportedConstant c => "unsupported constant: " ++ c.kindName
  | .notLabel id => "reference to non-label " ++ Text.ofInt id
  | .within part e => part ++ ": " ++ e.message

end PrintError

/-- The names of the labels of a method by id. -/
abbrev LabelNames := List (InsnId × Text)

/-- The labels of a code in order, each with its number counted from `n`. -/
def numberLabels (n : Nat) : List (InsnId × Insn) → List (InsnId × Nat)
  | [] => []
  | (id, x) :: rest =>
    if x.isLabel then (id, n) :: numberLabels (n + 1) rest else numberLabels n rest

/-- The names of the labels of a code. -/
def labelNames (c : Code) : LabelNames :=
  (numberLabels 0 c.listing).map fun p => (p.1, 76 :: Text.ofNat p.2)

/-- The names of labels, with a blank between neighbours. -/
def references (ls : LabelNames) (ids : List InsnId) : Except PrintError Text := do
  let names ← ids.mapM fun id => match ls.lookup id with
    | some n => .ok n
    | none => .error (.notLabel id)
  return Text.join " " names

/-- A constant as the operand that writes it. -/
def constantText : Constant → Except PrintError Text
  | .int v => .ok (Text.ofInt v.toInt)
  | .long v => .ok (Text.ofInt v.toInt ++ "L")
  | .float bits => .ok (BinaryFormat.single.render bits.toNat ++ "F")
  | .double bits => .ok (BinaryFormat.double.render bits.toNat ++ "D")
  | .string s => .ok (Text.quote s)
  | .type t => .ok ("class " ++ t.display)
  | .truth b => .error (.unsupportedConstant (.truth b))

/-- The cases of a lookup switch; a target without a key is a fault. -/
def caseTexts (ls : LabelNames) : List Int32 → List InsnId → Outcome PrintError Text
  | _, [] => .ok []
  | [], _ :: _ => .error (.fault .index)
  | k :: keys, t :: targets => do
    let name ← Outcome.lift (references ls [t])
    let rest ← caseTexts ls keys targets
    return Text.concat [" ", Text.ofInt k.toInt, ":", name, rest]

/-- The operands of an instruction, with a blank before each. -/
def operands (ls : LabelNames) (x : Insn) : Outcome PrintError Text :=
  match x with
  | .plain _ => .ok []
  | .var _ slot => .ok (" " ++ Text.ofInt slot)
  | .iinc slot delta => .ok (Text.concat [" ", Text.ofInt slot, " ", Text.ofInt delta.toInt])
  | .push op v =>
    if op = .newarray then .ok (" " ++ (arrayElementName? v).getD [])
    else .ok (" " ++ Text.ofInt v.toInt)
  | .ldc c => Outcome.lift ((constantText c).map (" " ++ ·))
  | .jump _ target => Outcome.lift ((references ls [target]).map (" " ++ ·))
  | .switch op keys otherwise targets =>
    if op = .tableswitch then
      Outcome.lift do
        let names ← references ls (otherwise :: targets)
        return Text.concat [" ", Text.ofInt ((keys.head?.map Int32.toInt).getD 0), " ", names]
    else do
      let name ← Outcome.lift (references ls [otherwise])
      let rest ← caseTexts ls keys targets
      return Text.concat [" ", name, rest]
  | .field _ m => .ok (" " ++ m.key)
  | .call op m itf =>
    .ok (Text.concat [if itf && op ≠ .invokeinterface then " itf " else " ",
      if m.owner.isEmpty then m.name ++ " " ++ m.desc else m.key])
  | .type _ name => .ok (" " ++ name)
  | .multiArray desc dims => .ok (Text.concat [" ", desc, " ", Text.ofInt dims])
  | .label => Outcome.fail (.unsupportedInsn x)

/-- An instruction as text; errors in its operands name its id. -/
def insnText (ls : LabelNames) (id : InsnId) (x : Insn) : Outcome PrintError Text :=
  match x with
  | .label => Outcome.fail (.unsupportedInsn x)
  | _ => do
    let rest ← (operands ls x).mapError (.within ("insn " ++ Text.ofInt id))
    return x.opcode.name ++ rest

/-- The lines of the instructions: labels at the margin, anything else indented. -/
def codeText (ls : LabelNames) : List (InsnId × Insn) → Outcome PrintError Text
  | [] => .ok []
  | (id, x) :: rest => do
    let line ← if x.isLabel then pure ((ls.lookup id).getD [] ++ ":\n")
      else do
        let t ← insnText ls id x
        pure (Text.concat ["\t", t, "\n"])
    let tail ← codeText ls rest
    return line ++ tail

/-- A line of the local variable table. -/
def variableText (ls : LabelNames) (v : LocalVar) : Outcome PrintError Text := do
  let range ← Outcome.ofExcept (.within ("local " ++ v.name)) (references ls [v.start, v.stop])
  return Text.concat ["\tlocal ", v.name, " ", v.desc, " ", Text.ofInt v.slot, " ", range,
    if v.signature.isEmpty then [] else " " ++ v.signature, "\n"]

/-- A line of a handler. -/
def handlerText (ls : LabelNames) (h : Handler) : Outcome PrintError Text := do
  let range ← Outcome.ofExcept (.within "handler") (references ls [h.start, h.stop, h.handler])
  return Text.concat ["\tcatch ", if h.type.isEmpty then "any" else h.type, " ", range, "\n"]

/-- A method as text. -/
def methodText (m : Method) : Outcome PrintError Text := do
  let ls := labelNames m.code
  let code ← codeText ls m.code.listing
  let locals ← m.locals.mapM (variableText ls)
  let handlers ← m.handlers.mapM (handlerText ls)
  let flags : Text := Text.concat (m.access.names.map fun (n : Text) => 32 :: n)
  let limits : Text := if m.maxStack = 0 ∧ m.maxLocals = 0 then []
    else Text.concat ["\tmaxs ", Text.ofInt m.maxStack, " ", Text.ofInt m.maxLocals, "\n"]
  return Text.concat ["method", flags, " ", m.name, " ", m.desc, "\n", limits, code,
    Text.concat locals, Text.concat handlers, "end\n"]

/-- A class as text. -/
def classText (c : ClassModel) : Outcome PrintError Text := do
  let parent : Text := if c.parent.isEmpty ∨ c.parent = ClassModel.defaultParent then []
    else 32 :: c.parent
  let methods ← c.methods.mapM fun m =>
    ((methodText m).mapError (.within (Text.concat ["method ", m.title]))).map (10 :: ·)
  return Text.concat ["class ", c.name, parent, "\n", Text.concat methods]

/-- A method as it is shown in messages: its text without the last line end, or the reason why it has
none between angle brackets. -/
def methodSummary (m : Method) : Except Fault Text :=
  match methodText m with
  | .ok t => .ok t.dropLast
  | .error (.error e) => .ok (Text.concat ["<", e.message, ">"])
  | .error (.fault f) => .error f

end CoordSplit.Assembly
