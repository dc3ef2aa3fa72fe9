import CoordSplit.Assembly.Parser
import CoordSplit.Assembly.Printer
import CoordSplit.Record.Binary
import CoordSplit.Record.OfClass
import CoordSplit.Record.OfNode
import CoordSplit.Record.ToClass
import CoordSplit.Record.Yaml
import CoordSplit.Yaml.Reader

/-!
# Files of classes

The extension of a file's name says how a class is written in it: as a printed document, as a binary
document, or, with any other extension, as assembly text.
-/

set_option autoImplicit false

namespace CoordSplit

/-- The ways to write a class. -/
inductive ClassFormat where
  | assembly
  | yaml
  | cbor
  deriving DecidableEq

namespace ClassFormat

/-- The format of a file by its name; case does not count. -/
def ofName (name : Text) : ClassFormat :=
  let ext := Text.lower (Text.fileExtension name)
  if ext = (".yaml" : Text) ∨ ext = (".yml" : Text) then .yaml
  else if ext = (".cbor" : Text) then .cbor
  else .assembly

/-- A class written in a format. -/
def encode (f : ClassFormat) (c : ClassModel) : Outcome Diagnostic Text :=
  match f with
  | .assembly => (Assembly.classText c).mapError fun e => .plain e.message
  | .yaml => Outcome.ofExcept RecordError.diagnostic ((ClassRecord.ofClass c).map fun r => r.toTree.print)
  | .cbor => Outcome.ofExcept RecordError.diagnostic ((ClassRecord.ofClass c).map fun r => r.toCbor.encode)

end ClassFormat

namespace ClassModel

/-- The class of a record that was read from a document. -/
def ofRecord (format : DocumentFormat) (context : Text) : Option ClassRecord → Except Diagnostic ClassModel
  | none => .error ⟨context, .undecodable format, none⟩
  | some r =>
    match r.toClass with
    | .error e => .error e.diagnostic
    | .ok c => .ok c

/-- The class that a binary document holds. -/
def ofCbor (t : Text) : Except Diagnostic ClassModel :=
  ofRecord .cbor "unmarshal cbor" ((Cbor.decode t).bind ClassRecord.ofCbor?)

/-- The class that a printed document holds. -/
def ofYaml (t : Text) : Except Diagnostic ClassModel :=
  ofRecord .yaml "unmarshal yaml" ((Yaml.read t).bind ClassRecord.ofNode?)

/-- The class that assembly text describes. -/
def ofAssembly (t : Text) : Except Diagnostic ClassModel :=
  match Assembly.parse t with
  | .error e => .error e.diagnostic
  | .ok c => .ok c

/-- The class in a file with a name and contents; a file without contents does not exist. -/
def ofFile (name : Text) (data : Option Text) : Except Diagnostic ClassModel :=
  match data, ClassFormat.ofName name with
  | none, _ => .error ⟨"read file", .file, none⟩
  | some t, .assembly => ofAssembly t
  | some t, .yaml => ofYaml t
  | some t, .cbor => ofCbor t

end ClassModel

end CoordSplit
