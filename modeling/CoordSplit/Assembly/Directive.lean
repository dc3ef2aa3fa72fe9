import CoordSplit.Insn.Effect
import CoordSplit.Method
import CoordSplit.Number.FloatText
import CoordSplit.Text.Numeral

/-!
# Lines of a method body

A line of a method body is an instruction, a label, an entry of the local variable table, a handler or
the declaration of the limits. References to labels are kept by name until the end of the method.
-/

set_option autoImplicit false

namespace CoordSplit.Assembly

/-- Why a line of assembly text is refused. -/
inductive LineError where
  | secondClass
  | classUsage
  | classExpected
  | nestedMethod
  | methodUsage
  /-- A descriptor that cannot be read; the first field tells what it describes. -/
  | descriptor (what : String) (cause : DescriptorError)
  | unknownAccess (flag : Text)
  | methodExpected (word : Text)
  | limitsUsage
  | badInteger (word : Text)
  | labelRedefined (label : Text)
  | localUsage
  | catchUsage
  | unknownInsn (word : Text)
  | usage (op : Opcode) (operands : String)
  | badArrayType (word : Text)
  | tableUsage
  | lookupUsage
  | keyLabel (word : Text)
  | constantUsage
  | badString (word : Text)
  | badLong (word : Text)
  | badFloat (word : Text)
  | badDouble (word : Text)
  | badInt (word : Text)
  | memberExpected (word : Text)
  | effect (cause : EffectError)
  | unterminated
  | endExpected (method : Text)
  | undefinedLabel (label : Text)

namespace LineError

/-- The wording of the cause. -/
def message : LineError → Text
  | .secondClass => "second class"
  | .classUsage => "class NAME [SUPER] expected"
  | .classExpected => "class expected"
  | .nestedMethod => "nested method"
  | .methodUsage => "method [FLAGS] NAME DESC expected"
  | .descriptor what e => Text.concat [what, ": ", e.message]
  | .unknownAccess f => "unknown access flag: " ++ f
  | .methodExpected w => "method expected, got " ++ Text.quote w
  | .limitsUsage => "maxs STACK LOCALS expected"
  | .badInteger w => "bad integer: " ++ Text.quote w
  | .labelRedefined l => "label redefined: " ++ l
  | .localUsage => "local NAME DESC SLOT START END [SIGNATURE] expected"
  | .catchUsage => "catch TYPE START END HANDLER expected"
  | .unknownInsn w => "unknown instruction: " ++ w
  | .usage op operands => Text.concat [op.name, " ", operands, " expected"]
  | .badArrayType w => "bad array type: " ++ w
  | .tableUsage => "tableswitch MIN DEFAULT LABELS... expected"
  | .lookupUsage => "lookupswitch DEFAULT KEY:LABEL... expected"
  | .keyLabel w => "KEY:LABEL expected, got " ++ Text.quote w
  | .constantUsage => "ldc VALUE expected"
  | .badString w => Text.concat ["bad string ", w, ": invalid syntax"]
  | .badLong w => "bad long: " ++ w
  | .badFloat w => "bad float: " ++ w
  | .badDouble w => "bad double: " ++ w
  | .badInt w => "bad int: " ++ w
  | .memberExpected w => "OWNER#NAME expected, got " ++ Text.quote w
  | .effect e => e.message
  | .unterminated => "unterminated string"
  | .endExpected m => Text.concat ["method ", m, ": end expected"]
  | .undefinedLabel l => "undefined label: " ++ l

end LineError

/-- A line of a method body, with labels by name. -/
inductive Item where
  | insn (x : Insn)
  | jump (op : Opcode) (target : Text)
  | switch (op : Opcode) (keys : List Int32) (otherwise : Text) (targets : List Text)
  | label (name : Text)
  /-- A variable whose start and stop are still to be filled in. -/
  | variable (v : LocalVar) (start stop : Text)
  | handler (type start stop handler : Text)
  | limits (maxStack maxLocals : Int)

/-- An integer of 32 bits. -/
def integer (w : Text) : Except LineError Int :=
  match Text.intValue .detect 32 w with
  | .ok i => .ok i
  | .error _ => .error (.badInteger w)

/-- The owner and the name of a member written `OWNER#NAME`. -/
def member (w : Text) : Except LineError (Text × Text) :=
  match Text.cut 35 w with
  | some (owner, name) =>
    if owner.isEmpty ∨ name.isEmpty then .error (.memberExpected w) else .ok (owner, name)
  | none => .error (.memberExpected w)

/-- A number of the given format. -/
def floatConstant (form : BinaryFormat) (w num : Text) (bad : Text → LineError) :
    Except LineError Nat :=
  match form.read? num with
  | some bits => .ok bits
  | none => .error (bad w)

/-- The constant that a word writes. A string is quoted; the last letter of a number may give its type;
a number without such a letter is a double if it has a point or an exponent, and an int otherwise. -/
def constant (w : Text) : Except LineError Constant := do
  if w.head? = some 34 then
    match Text.unquote w with
    | some s => return .string s
    | none => throw (.badString w)
  let last := (w.getLast?).map Text.lowerByte
  let num := w.dropLast
  if 1 < w.length ∧ last = some 108 then
    match Text.intValue .detect 64 num with
    | .ok v => return .long (Int64.ofInt v)
    | .error _ => throw (.badLong w)
  else if 1 < w.length ∧ last = some 102 then
    let bits ← floatConstant .single w num .badFloat
    return .float (UInt32.ofNat bits)
  else if 1 < w.length ∧ last = some 100 then
    let bits ← floatConstant .double w num .badDouble
    return .double (UInt64.ofNat bits)
  else if w.any (fun b => b = 46 || b = 101 || b = 69) && !Text.startsWith w "0x" then
    let bits ← floatConstant .double w w .badDouble
    return .double (UInt64.ofNat bits)
  else
    match Text.intValue .detect 32 w with
    | .ok v => return .int (Int32.ofInt v)
    | .error _ => throw (.badInt w)

/-- The keys of a table switch: consecutive integers from the least one, wrapping around. -/
def tableKeys (least : Int) : Nat → List Int32
  | 0 => []
  | n + 1 => Int32.ofInt least :: tableKeys (least + 1) n

/-- A case of a lookup switch, written `KEY:LABEL`. -/
def lookupCase (w : Text) : Except LineError (Int32 × Text) :=
  match Text.cut 58 w with
  | none => .error (.keyLabel w)
  | some (k, label) => do
    let key ← integer k
    return (Int32.ofInt key, label)

/-- A switch with its operands. -/
def switchItem (op : Opcode) (args : List Text) : Except LineError Item :=
  if op = .tableswitch then
    match args with
    | least :: otherwise :: labels => do
      let n ← integer least
      return .switch op (tableKeys n labels.length) otherwise labels
    | _ => .error .tableUsage
  else
    match args with
    | otherwise :: cases => do
      let cases ← cases.mapM lookupCase
      return .switch op (cases.map Prod.fst) otherwise (cases.map Prod.snd)
    | [] => .error .lookupUsage

/-- A constant instruction with its operands. -/
def constantItem (args : List Text) : Except LineError Item :=
  match args with
  | [kind, name] =>
    if kind = ("class" : Text) then .ok (.insn (.ldc (.type (.ofClassName name))))
    else .error .constantUsage
  | [w] => do
    let c ← constant w
    return .insn (.ldc c)
  | _ => .error .constantUsage

/-- A call with its operands. -/
def callItem (op : Opcode) (args : List Text) : Except LineError Item :=
  let itf := args.length = 3 && args.head? = some ("itf" : Text)
  match if itf then args.tail else args with
  | [target, desc] => do
    let (owner, name) ← if op = .invokedynamic && !target.contains 35 then pure ([], target)
      else member target
    match MethodType.parse desc with
    | .error e => throw (.descriptor "method type" e)
    | .ok _ => return .insn (.call op ⟨owner, name, desc⟩ (itf || op = .invokeinterface))
  | _ => .error (.usage op "[itf] OWNER#NAME DESC")

/-- A field access with its operands. -/
def fieldItem (op : Opcode) (args : List Text) : Except LineError Item :=
  match args with
  | [target, desc] => do
    let (owner, name) ← member target
    match ValueType.parse desc with
    | .error e => throw (.descriptor "field type" e)
    | .ok _ => return .insn (.field op ⟨owner, name, desc⟩)
  | _ => .error (.usage op "OWNER#NAME DESC")

/-- An instruction with its operands. -/
def insnItem (op : Opcode) (args : List Text) : Except LineError Item :=
  match op with
  | .iload | .lload | .fload | .dload | .aload | .istore | .lstore | .fstore | .dstore | .astore
  | .ret =>
    match args with
    | [slot] => do
      let s ← integer slot
      return .insn (.var op s)
    | _ => .error (.usage op "SLOT")
  | .iinc =>
    match args with
    | [slot, delta] => do
      let s ← integer slot
      let d ← integer delta
      return .insn (.iinc s (Int32.ofInt d))
    | _ => .error (.usage op "SLOT DELTA")
  | .bipush | .sipush =>
    match args with
    | [value] => do
      let v ← integer value
      return .insn (.push op (Int32.ofInt v))
    | _ => .error (.usage op "VALUE")
  | .newarray =>
    match args with
    | [type] =>
      match arrayElementCode? type with
      | some c => .ok (.insn (.push op c))
      | none => .error (.badArrayType type)
    | _ => .error (.usage op "TYPE")
  | .ldc => constantItem args
  | .ifeq | .ifne | .iflt | .ifge | .ifgt | .ifle | .ifIcmpeq | .ifIcmpne | .ifIcmplt | .ifIcmpge
  | .ifIcmpgt | .ifIcmple | .ifAcmpeq | .ifAcmpne | .goto | .jsr | .ifnull | .ifnonnull =>
    match args with
    | [label] => .ok (.jump op label)
    | _ => .error (.usage op "LABEL")
  | .tableswitch | .lookupswitch => switchItem op args
  | .getstatic | .putstatic | .getfield | .putfield => fieldItem op args
  | .invokevirtual | .invokespecial | .invokestatic | .invokeinterface | .invokedynamic =>
    callItem op args
  | .new | .anewarray | .checkcast | .instanceof =>
    match args with
    | [name] => .ok (.insn (.type op name))
    | _ => .error (.usage op "TYPE")
  | .multianewarray =>
    match args with
    | [desc, dims] => do
      let d ← integer dims
      return .insn (.multiArray desc d)
    | _ => .error (.usage op "DESC DIMS")
  | _ =>
    match (Insn.plain op).effect with
    | .error e => .error (.effect e)
    | .ok _ => if args.isEmpty then .ok (.insn (.plain op)) else .error (.usage op "")

/-- An entry of the local variable table. -/
def variableItem (args : List Text) : Except LineError Item :=
  match args with
  | name :: desc :: slot :: start :: stop :: signature =>
    if 1 < signature.length then .error .localUsage
    else do
      let s ← integer slot
      match ValueType.parse desc with
      | .error e => throw (.descriptor "local type" e)
      | .ok _ => return .variable ⟨name, desc, signature.headD [], s, 0, 0⟩ start stop
  | _ => .error .localUsage

/-- A handler. -/
def handlerItem (args : List Text) : Except LineError Item :=
  match args with
  | [type, start, stop, handler] =>
    .ok (.handler (if type = ("any" : Text) then [] else type) start stop handler)
  | _ => .error .catchUsage

/-- The limits of a method. -/
def limitsItem (args : List Text) : Except LineError Item :=
  match args with
  | [stack, locals] => do
    let s ← integer stack
    let l ← integer locals
    return .limits s l
  | _ => .error .limitsUsage

/-- The meaning of a line of a method body, from its first word and the others. -/
def bodyItem (word : Text) (args : List Text) : Except LineError Item :=
  if word = ("maxs" : Text) then limitsItem args
  else if word = ("local" : Text) then variableItem args
  else if word = ("catch" : Text) then handlerItem args
  else if args.isEmpty ∧ Text.endsWith word ":" then .ok (.label word.dropLast)
  else match Opcode.ofName? word with
    | some op => if op = .label then .error (.unknownInsn word) else insnItem op args
    | none => .error (.unknownInsn word)

end CoordSplit.Assembly
