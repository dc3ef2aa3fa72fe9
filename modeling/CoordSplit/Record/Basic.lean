import CoordSplit.Diagnostic
import CoordSplit.Method
import CoordSplit.Text.Numeral
import CoordSplit.Text.Quoted

/-!
# Records of classes

The form in which a class is stored as a document. An instruction is one flat record, of which each form
of instruction uses some fields. Labels are numbered from one in the order in which they stand in the code,
and references to them are numbers, so that the record does not depend on the ids of the instructions.
Constants are texts, so that no format can lose precision.
-/

set_option autoImplicit false

namespace CoordSplit

/-- A constant as kind and text. -/
structure ConstantRecord where
  kind : Text := []
  value : Text := []
  deriving DecidableEq

/-- An instruction; fields that its form does not use are empty. -/
structure InsnRecord where
  op : Text := []
  label : Int := 0
  slot : Int := 0
  int : Int := 0
  const : Option ConstantRecord := none
  owner : Text := []
  name : Text := []
  desc : Text := []
  itf : Bool := false
  target : Int := 0
  targets : List Int := []
  keys : List Int := []
  deriving DecidableEq

/-- An entry of the local variable table. -/
structure LocalRecord where
  name : Text := []
  desc : Text := []
  signature : Text := []
  slot : Int := 0
  start : Int := 0
  stop : Int := 0
  deriving DecidableEq

/-- An exception handler. -/
structure HandlerRecord where
  type : Text := []
  start : Int := 0
  stop : Int := 0
  handler : Int := 0
  deriving DecidableEq

/-- A method. -/
structure MethodRecord where
  name : Text := []
  desc : Text := []
  access : List Text := []
  maxStack : Int := 0
  maxLocals : Int := 0
  code : List InsnRecord := []
  locals : List LocalRecord := []
  handlers : List HandlerRecord := []
  deriving DecidableEq

/-- A class. -/
structure ClassRecord where
  name : Text := []
  parent : Text := []
  methods : List MethodRecord := []
  deriving DecidableEq

/-- Why a class has no record, or a record describes no class. -/
inductive RecordError where
  | notLabel (id : InsnId)
  | unsupportedConstant (c : Constant)
  | descriptor (cause : DescriptorError)
  | unknownAccess (flag : Text)
  | badLabel (index : Nat) (label : Int)
  | undefinedLabel (label : Int)
  | unknownInsn (op : Text)
  | constantExpected
  | unknownKind (kind : Text)
  /-- A constant that is no number; `signed` tells whether the number may have a sign. -/
  | badNumber (signed : Bool) (value : Text) (cause : NumeralError)
  /-- An error in a part; the text names the part. -/
  | within (part : Text) (cause : RecordError)

namespace RecordError

/-- The wording of the cause. -/
def message : RecordError → Text
  | .notLabel id => Text.concat ["reference to ", Text.ofInt id, " which is not a label"]
  | .unsupportedConstant c => "unsupported constant " ++ c.kindName
  | .descriptor e => "descriptor: " ++ e.message
  | .unknownAccess f => "unknown access flag: " ++ f
  | .badLabel i l =>
    Text.concat ["code ", Text.ofNat i, ": bad or duplicate label ", Text.ofInt l]
  | .undefinedLabel l => "undefined label " ++ Text.ofInt l
  | .unknownInsn op => "unknown instruction: " ++ op
  | .constantExpected => "ldc: constant expected"
  | .unknownKind k => "unknown constant kind: " ++ Text.quote k
  | .badNumber signed v e =>
    Text.concat ["strconv.", if signed then "ParseInt" else "ParseUint", ": parsing ", Text.quote v,
      ": ", e.message]
  | .within part e => part ++ ": " ++ e.message

/-- The failure as it is reported. -/
def diagnostic (e : RecordError) : Diagnostic := .plain e.message

end RecordError

/-- An error within a part. -/
def inPart {α : Type} (part : Text) : Except RecordError α → Except RecordError α
  | .ok a => .ok a
  | .error e => .error (.within part e)

end CoordSplit
