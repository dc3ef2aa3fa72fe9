import CoordSplit.Cbor.Decode
import CoordSplit.Record.Basic

/-!
# Records as binary documents

A record is a map from field names to values. Fields that may be left out are left out when they are
empty, and an empty list that may not be left out is null.

When a record is read, a null keeps the empty value, a field counts where it first occurs, names may differ
in case, and other keys are skipped.
-/

set_option autoImplicit false

namespace CoordSplit

-- Powers are the built-in ones, whatever else is in scope.
attribute [local instance (2000)] instPowNat

namespace Cbor

/-- A field under its name. -/
def field (name : String) (value : Cbor) : Cbor × Cbor := (.ofText name, value)

/-- A field that is left out if a condition fails. -/
def fieldIf (present : Bool) (name : String) (value : Cbor) : List (Cbor × Cbor) :=
  if present then [field name value] else []

/-- A text field that is left out if it is empty. -/
def textField (name : String) (t : Text) : List (Cbor × Cbor) := fieldIf (!t.isEmpty) name (.ofText t)

/-- A number field that is left out if it is zero. -/
def intField (name : String) (i : Int) : List (Cbor × Cbor) := fieldIf (i ≠ 0) name (.ofInt i)

/-- A list field that is left out if it is empty. -/
def listField {α : Type} (name : String) (f : α → Cbor) (l : List α) : List (Cbor × Cbor) :=
  fieldIf (!l.isEmpty) name (.array (l.map f))

/-- A list, which is null if it is empty. -/
def listOrNull {α : Type} (f : α → Cbor) (l : List α) : Cbor :=
  if l.isEmpty then .null else .array (l.map f)

/-- The value of bytes as a number, the greatest first. -/
def bytesValue (b : Text) : Nat := b.foldl (fun n x => n * 256 + x.toNat) 0

/-- An item without its tags. Tags of dates ask for a text or a number, and tags of big numbers make a
number out of bytes. -/
def untag : Cbor → Option Cbor
  | .tagged 0 x =>
    match x with
    | .text p => some (.text p)
    | _ => none
  | .tagged 1 x =>
    match x with
    | .nat n => some (.nat n)
    | .negative n => some (.negative n)
    | .float s b => some (.float s b)
    | _ => none
  | .tagged 2 x =>
    match x with
    | .bytes b => some (.nat (bytesValue b))
    | _ => none
  | .tagged 3 x =>
    match x with
    | .bytes b => some (.negative (bytesValue b))
    | _ => none
  | .tagged _ x => untag x
  | x => some x

/-- Whether an item stands for a missing value. -/
def isNull : Cbor → Bool
  | .simple 22 | .simple 23 => true
  | _ => false

/-- The text of an item; every part of it has to be well formed. -/
def toText? (x : Cbor) : Option Text := do
  match ← untag x with
  | .text parts => if parts.all Text.isUtf8 then some (Text.concat parts) else none
  | y => if y.isNull then some [] else none

/-- The number of an item, which has to fit into a word of the given size. -/
def toInt? (bits : Nat) (x : Cbor) : Option Int := do
  let fit (i : Int) : Option Int := if -2 ^ (bits - 1) ≤ i ∧ i < 2 ^ (bits - 1) then some i else none
  match ← untag x with
  | .nat n => fit n
  | .negative n => fit (-1 - n)
  | .simple n => if n = 22 ∨ n = 23 then some 0 else if n < 20 ∨ 32 ≤ n then fit n else none
  | _ => none

/-- The truth value of an item. -/
def toBool? (x : Cbor) : Option Bool := do
  match ← untag x with
  | .simple 20 | .simple 22 | .simple 23 => some false
  | .simple 21 => some true
  | _ => none

/-- The list of an item. -/
def toList? {α : Type} (f : Cbor → Option α) (x : Cbor) : Option (List α) := do
  match ← untag x with
  | .array items => items.mapM f
  | y => if y.isNull then some [] else none

/-- The name of a field that a key stands for: the first one not yet found that is the key, or else that
is the key in other case. -/
def matchName (names found : List Text) (key : Text) : Option Text :=
  let free := names.filter fun n => !found.contains n
  (free.find? (· = key)).or (free.find? fun n => Text.lower n = Text.lower key)

/-- The values of the named fields in some pairs. A key that is neither a text nor a number is refused. -/
def readFields (names : List Text) : List Text → List (Cbor × Cbor) → Option (List (Text × Cbor))
  | _, [] => some []
  | found, (k, v) :: rest =>
    match k with
    | .text parts =>
      if parts.all Text.isUtf8 then
        match matchName names found (Text.concat parts) with
        | some n => (readFields names (n :: found) rest).map ((n, v) :: ·)
        | none => readFields names found rest
      else none
    | .nat _ | .negative _ => readFields names found rest
    | _ => none

/-- The fields of a record; a null has none. -/
def toFields? (names : List String) (x : Cbor) : Option (List (Text × Cbor)) := do
  match ← untag x with
  | .map pairs => readFields (names.map Text.ofString) [] pairs
  | y => if y.isNull then some [] else none

/-- The value of a field, which is null if it is missing. -/
def get (fields : List (Text × Cbor)) (name : String) : Cbor := (fields.lookup (name : Text)).getD .null

end Cbor

open Cbor

namespace ConstantRecord

/-- The binary form. -/
def toCbor (c : ConstantRecord) : Cbor :=
  .map [field "kind" (.ofText c.kind), field "value" (.ofText c.value)]

/-- The record of a binary form; a null stands for no record. -/
def ofCbor? (x : Cbor) : Option (Option ConstantRecord) := do
  let y ← untag x
  if y.isNull then return none
  let fs ← y.toFields? ["kind", "value"]
  return some ⟨← (get fs "kind").toText?, ← (get fs "value").toText?⟩

end ConstantRecord

namespace InsnRecord

/-- The binary form. -/
def toCbor (r : InsnRecord) : Cbor :=
  .map (field "op" (.ofText r.op) :: intField "label" r.label ++ intField "slot" r.slot ++
    intField "int" r.int ++ (r.const.map fun c => field "const" c.toCbor).toList ++
    textField "owner" r.owner ++ textField "name" r.name ++ textField "desc" r.desc ++
    fieldIf r.itf "itf" (.ofBool r.itf) ++ intField "target" r.target ++
    listField "targets" Cbor.ofInt r.targets ++ listField "keys" Cbor.ofInt r.keys)

/-- The record of a binary form. -/
def ofCbor? (x : Cbor) : Option InsnRecord := do
  let fs ← x.toFields? ["op", "label", "slot", "int", "const", "owner", "name", "desc", "itf",
    "target", "targets", "keys"]
  return {
    op := ← (get fs "op").toText?
    label := ← (get fs "label").toInt? 64
    slot := ← (get fs "slot").toInt? 64
    int := ← (get fs "int").toInt? 64
    const := ← ConstantRecord.ofCbor? (get fs "const")
    owner := ← (get fs "owner").toText?
    name := ← (get fs "name").toText?
    desc := ← (get fs "desc").toText?
    itf := ← (get fs "itf").toBool?
    target := ← (get fs "target").toInt? 64
    targets := ← (get fs "targets").toList? (toInt? 64)
    keys := ← (get fs "keys").toList? (toInt? 32) }

end InsnRecord

namespace LocalRecord

/-- The binary form. -/
def toCbor (l : LocalRecord) : Cbor :=
  .map ([field "name" (.ofText l.name), field "desc" (.ofText l.desc)] ++
    textField "signature" l.signature ++
    [field "slot" (.ofInt l.slot), field "start" (.ofInt l.start), field "end" (.ofInt l.stop)])

/-- The record of a binary form. -/
def ofCbor? (x : Cbor) : Option LocalRecord := do
  let fs ← x.toFields? ["name", "desc", "signature", "slot", "start", "end"]
  return {
    name := ← (get fs "name").toText?
    desc := ← (get fs "desc").toText?
    signature := ← (get fs "signature").toText?
    slot := ← (get fs "slot").toInt? 64
    start := ← (get fs "start").toInt? 64
    stop := ← (get fs "end").toInt? 64 }

end LocalRecord

namespace HandlerRecord

/-- The binary form. -/
def toCbor (h : HandlerRecord) : Cbor :=
  .map (textField "type" h.type ++ [field "start" (.ofInt h.start), field "end" (.ofInt h.stop),
    field "handler" (.ofInt h.handler)])

/-- The record of a binary form. -/
def ofCbor? (x : Cbor) : Option HandlerRecord := do
  let fs ← x.toFields? ["type", "start", "end", "handler"]
  return {
    type := ← (get fs "type").toText?
    start := ← (get fs "start").toInt? 64
    stop := ← (get fs "end").toInt? 64
    handler := ← (get fs "handler").toInt? 64 }

end HandlerRecord

namespace MethodRecord

/-- The binary form. -/
def toCbor (m : MethodRecord) : Cbor :=
  .map ([field "name" (.ofText m.name), field "desc" (.ofText m.desc)] ++
    listField "access" Cbor.ofText m.access ++
    [field "max_stack" (.ofInt m.maxStack), field "max_locals" (.ofInt m.maxLocals),
     field "code" (listOrNull InsnRecord.toCbor m.code)] ++
    listField "locals" LocalRecord.toCbor m.locals ++
    listField "handlers" HandlerRecord.toCbor m.handlers)

/-- The record of a binary form. -/
def ofCbor? (x : Cbor) : Option MethodRecord := do
  let fs ← x.toFields? ["name", "desc", "access", "max_stack", "max_locals", "code", "locals", "handlers"]
  return {
    name := ← (get fs "name").toText?
    desc := ← (get fs "desc").toText?
    access := ← (get fs "access").toList? toText?
    maxStack := ← (get fs "max_stack").toInt? 64
    maxLocals := ← (get fs "max_locals").toInt? 64
    code := ← (get fs "code").toList? InsnRecord.ofCbor?
    locals := ← (get fs "locals").toList? LocalRecord.ofCbor?
    handlers := ← (get fs "handlers").toList? HandlerRecord.ofCbor? }

end MethodRecord

namespace ClassRecord

/-- The binary form. -/
def toCbor (c : ClassRecord) : Cbor :=
  .map (field "name" (.ofText c.name) :: textField "super" c.parent ++
    [field "methods" (listOrNull MethodRecord.toCbor c.methods)])

/-- The record of a binary form. -/
def ofCbor? (x : Cbor) : Option ClassRecord := do
  let fs ← x.toFields? ["name", "super", "methods"]
  return {
    name := ← (get fs "name").toText?
    parent := ← (get fs "super").toText?
    methods := ← (get fs "methods").toList? MethodRecord.ofCbor? }

end ClassRecord

end CoordSplit
