import CoordSplit.Text.Base64
import CoordSplit.Text.Utf8
import CoordSplit.Yaml.Meaning

/-!
# Nodes of read documents

A document that has been read is a tree of scalars, lists and maps. The functions here read values of a
wanted type out of nodes. A result `some none` says that the node stands for nothing; the value wanted then
keeps its default, and an item of a list is left out.
-/

set_option autoImplicit false

namespace CoordSplit.Yaml

-- Powers are the built-in ones, whatever else is in scope.
attribute [local instance (2000)] instPowNat

/-- A node of a document. -/
inductive Node where
  /-- A scalar; `plain` tells whether it was written without quotes. -/
  | scalar (plain : Bool) (tag value : Text)
  | list (items : List Node)
  | map (pairs : List (Node × Node))

namespace Node

/-- The node that stands for nothing. -/
def empty : Node := .scalar true [] []

/-- Whether a meaning is one that a tag asks for. Whole numbers are numbers with a fraction, too. -/
def tagAccepts (tag : Text) : Meaning → Bool
  | .null => tag = ("!!null" : Text)
  | .truth _ => tag = ("!!bool" : Text)
  | .int _ => tag = ("!!int" : Text) || tag = ("!!float" : Text)
  | .float _ => tag = ("!!float" : Text)
  | .date => tag = ("!!timestamp" : Text)
  | .text => false

/-- The tags that ask for a meaning. -/
def meaningTags : List Text := ["!!null", "!!bool", "!!int", "!!float", "!!timestamp"].map Text.ofString

/-- What a scalar stands for, with its text. Without a tag, quotes make it a text. A tag that asks for a
meaning is refused if the text has another one; with any other tag it is a text. -/
def read? (plain : Bool) (tag value : Text) : Option (Meaning × Text) :=
  if tag.isEmpty ∨ tag = ("!" : Text) then
    some (if plain then meaning value else .text, value)
  else if tag = ("!!binary" : Text) then (Text.ofBase64 value).map fun b => (.text, b)
  else if meaningTags.contains tag then
    if tagAccepts tag (meaning value) then some (meaning value, value) else none
  else some (.text, value)

/-- The text of a scalar, whatever it stands for. -/
def text? : Node → Option (Option Text)
  | .scalar plain tag value =>
    match read? plain tag value with
    | none => none
    | some (.null, _) => some none
    | some (_, t) => some (some t)
  | _ => none

/-- A double without its fraction; a value below the words of 64 bits becomes the least of them. -/
def truncate (bits : Nat) : Option Int :=
  let least : Int := -2 ^ (63 : Nat)
  let negative := BinaryFormat.double.isNegative bits
  match BinaryFormat.double.magnitude bits with
  | .nan => none
  | .infinite => if negative then some least else none
  | .finite m q _ _ =>
    let n : Nat := if 0 ≤ q then m * 2 ^ q.toNat else m / 2 ^ (-q).toNat
    let i : Int := if negative then -(n : Int) else n
    if i > 2 ^ (63 : Nat) then none else if i < least ∨ i = 2 ^ (63 : Nat) then some least else some i

/-- The number of a scalar, which has to fit into a word of the given size. -/
def int? (bits : Nat) : Node → Option (Option Int)
  | .scalar plain tag value =>
    let fit (i : Int) : Option (Option Int) :=
      if -2 ^ (bits - 1) ≤ i ∧ i < 2 ^ (bits - 1) then some (some i) else none
    match read? plain tag value with
    | some (.null, _) => some none
    | some (.int i, _) => fit i
    | some (.float b, _) => (truncate b).bind fit
    | _ => none
  | _ => none

/-- The truth value of a scalar; some words that are texts elsewhere are truth values here. -/
def bool? : Node → Option (Option Bool)
  | .scalar plain tag value =>
    match read? plain tag value with
    | some (.null, _) => some none
    | some (.truth b, _) => some (some b)
    | some (.text, t) =>
      if (["y", "Y", "yes", "on"].map Text.ofString).contains t then some (some true)
      else if (["n", "N", "no", "off"].map Text.ofString).contains t then some (some false)
      else none
    | _ => none
  | _ => none

/-- Whether a node is a scalar that stands for nothing. -/
def isNull (n : Node) : Bool :=
  match n with
  | .scalar plain tag value => (read? plain tag value).map Prod.fst = some .null
  | _ => false

/-- The items of a list that stand for something. -/
def list? {α : Type} (f : Node → Option (Option α)) (n : Node) : Option (Option (List α)) :=
  match n with
  | .list items => (items.mapM f).map fun l => some (l.filterMap id)
  | _ => if n.isNull then some none else none

/-- What tells two keys apart: their text, or, if they are no scalars, only their kind. -/
def keyId : Node → Nat × Text
  | .scalar _ _ value => (0, value)
  | .list _ => (1, [])
  | .map _ => (2, [])

/-- The pairs whose key stands for something, with the keys as texts. -/
def keyed : List (Node × Node) → Option (List (Text × Node))
  | [] => some []
  | (k, v) :: rest =>
    match k.text? with
    | none => none
    | some none => keyed rest
    | some (some key) => (keyed rest).map ((key, v) :: ·)

/-- The keys of a map with their values. No key may occur twice. -/
def entries? (n : Node) : Option (Option (List (Text × Node))) :=
  match n with
  | .map pairs =>
    let ids := pairs.map fun p => p.1.keyId
    if ids.eraseDups.length < ids.length then none
    else match keyed pairs with
      | none => none
      | some l => if (l.map Prod.fst).eraseDups.length < l.length then none else some (some l)
  | _ => if n.isNull then some none else none

/-- The fields of a record, which all have to have one of the given names. -/
def fields? (names : List String) (n : Node) : Option (Option (List (Text × Node))) :=
  match n.entries? with
  | some (some l) =>
    if l.all fun p => (names.map Text.ofString).contains p.1 then some (some l) else none
  | r => r

/-- What is read from a field; a field that is missing, or stands for nothing, has its default. -/
def field {α : Type} (fields : List (Text × Node)) (name : String) (f : Node → Option (Option α))
    (otherwise : α) : Option α :=
  (f ((fields.lookup (name : Text)).getD .empty)).map fun x => x.getD otherwise

/-- A text field. -/
def textField (fields : List (Text × Node)) (name : String) : Option Text := field fields name text? []

/-- A field with a number of 64 bits. -/
def intField (fields : List (Text × Node)) (name : String) : Option Int := field fields name (int? 64) 0

/-- A field with a truth value. -/
def boolField (fields : List (Text × Node)) (name : String) : Option Bool := field fields name bool? false

/-- A field with a list. -/
def listField {α : Type} (fields : List (Text × Node)) (name : String) (f : Node → Option (Option α)) :
    Option (List α) :=
  field fields name (list? f) []

/-- A record that is read from fields with the given names. -/
def record? {α : Type} (names : List String) (f : List (Text × Node) → Option α) (n : Node) :
    Option (Option α) :=
  match n.fields? names with
  | none => none
  | some none => some none
  | some (some l) => (f l).map some

end Node

end CoordSplit.Yaml
