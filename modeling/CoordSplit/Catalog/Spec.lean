import CoordSplit.Catalog.Basic
import CoordSplit.Descriptor.Parser
import CoordSplit.Sorted
import CoordSplit.Text.Quoted

/-!
# Catalogs from their descriptions

A catalog is described by texts: methods by keys `owner#name desc`, and flags. `CatalogSpec.build`
reads the keys and checks that the descriptions make sense together.
-/

set_option autoImplicit false

namespace CoordSplit

/-- Why a text is no key of a method. -/
inductive KeyError where
  | form (key : Text)
  | descriptor (key : Text) (cause : DescriptorError)

/-- The wording of the cause. -/
def KeyError.message : KeyError → Text
  | .form k => Text.concat ["bad method key ", Text.quote k, ": owner#name desc expected"]
  | .descriptor k e => Text.concat ["method key ", Text.quote k, ": ", e.message]

/-- The member and its type from a key `owner#name desc`. -/
def Member.parse (key : Text) : Except KeyError (Member × MethodType) :=
  match Text.cut 32 key with
  | none => .error (.form key)
  | some (place, desc) =>
    match Text.cut 35 place with
    | none => .error (.form key)
    | some (owner, name) =>
      if owner.isEmpty ∨ name.isEmpty then .error (.form key)
      else match MethodType.parse desc with
        | .error e => .error (.descriptor key e)
        | .ok f => .ok (⟨owner, name, desc⟩, f)

/-- Why a text does not name an accessor. -/
inductive AccessorError where
  | key (cause : KeyError)
  | descriptor (member : Member) (expected : Text)

/-- The wording of the cause. -/
def AccessorError.message : AccessorError → Text
  | .key e => e.message
  | .descriptor m d => Text.concat [m.key, ": ", d, " descriptor expected"]

/-- The member of a key, which has to have the given descriptor. -/
def Member.parseAccessor (desc key : Text) : Except AccessorError Member :=
  match Member.parse key with
  | .error e => .error (.key e)
  | .ok (m, _) => if m.desc = desc then .ok m else .error (.descriptor m desc)

/-- Why three accessors cannot be had from a list of keys. -/
inductive AxesError where
  | count (n : Nat)
  | accessor (index : Nat) (cause : AccessorError)

/-- The members of three keys, one per axis, each with the given descriptor. -/
def AxisMembers.parse (desc : Text) : List Text → Except AxesError AxisMembers
  | [x, y, z] => do
    let read (i : Nat) (key : Text) : Except AxesError Member :=
      match Member.parseAccessor desc key with
      | .error e => .error (.accessor i e)
      | .ok m => .ok m
    return ⟨← read 0 x, ← read 1 y, ← read 2 z⟩
  | keys => .error (.count keys.length)

/-- The description of an entry. -/
structure EntrySpec where
  returnsPacked : Bool := false
  packedArgs : List Int := []
  isStatic : Bool := false
  /-- The new name, `owner#name` or only the name; empty if the name is kept. -/
  rename : Text := []
  axes : List Text := []
  pack : Bool := false

/-- Why the description of an entry is refused. -/
inductive EntryError where
  | key (cause : KeyError)
  | packedArgs (cause : MethodType.SplitError)
  | returns (t : ValueType)
  | rename (name : Text)
  | axesAndPack
  | axesShape
  | axesCount
  | axis (index : Nat) (cause : AccessorError)
  | packShape

/-- The wording of the cause. -/
def EntryError.message : EntryError → Text
  | .key e => e.message
  | .packedArgs e => "packed_args: " ++ e.message
  | .returns t => "returns_packed: method returns " ++ t.desc
  | .rename n => "bad rename: " ++ Text.quote n
  | .axesAndPack => "axes and pack are exclusive"
  | .axesShape => "axes: instance ()J method returning packed value expected"
  | .axesCount => "axes: exactly 3 accessors expected"
  | .axis i e => Text.concat ["axis ", Text.ofNat i, ": ", e.message]
  | .packShape => "pack: static (III)J method returning packed value expected"

namespace EntrySpec

/-- The owner and the name of the replacement of a method. -/
def renamed (s : EntrySpec) (m : Member) : Except EntryError (Text × Text) :=
  if s.rename.isEmpty then .ok (m.owner, m.name)
  else
    let (owner, name) := (Text.cut 35 s.rename).getD (m.owner, s.rename)
    if owner.isEmpty ∨ name.isEmpty then .error (.rename s.rename) else .ok (owner, name)

/-- The accessors of an entry, whose method has the given type. -/
def buildAxes (s : EntrySpec) (f : MethodType) : Except EntryError AxisMembers :=
  if ¬ s.returnsPacked ∨ s.isStatic ∨ ¬ f.params.isEmpty then .error .axesShape
  else match AxisMembers.parse "()I" s.axes with
    | .ok m => .ok m
    | .error (.count _) => .error .axesCount
    | .error (.accessor i e) => .error (.axis i e)

/-- The entry for a key. -/
def build (s : EntrySpec) (key : Text) : Except EntryError Entry := do
  let (m, f) ← match Member.parse key with
    | .error e => throw (.key e)
    | .ok r => pure r
  let args := s.packedArgs.mergeSort (· ≤ ·)
  let split ← match f.split args with
    | .error e => throw (.packedArgs e)
    | .ok g => pure g
  if s.returnsPacked ∧ f.result ≠ .long then throw (.returns f.result)
  let (owner, name) ← s.renamed m
  if ¬ s.axes.isEmpty ∧ s.pack then throw .axesAndPack
  let axes ← if s.axes.isEmpty then pure none else (s.buildAxes f).map some
  if s.pack ∧ (¬ s.returnsPacked ∨ ¬ s.isStatic ∨ m.desc ≠ ("(III)J" : Text)) then throw .packShape
  return ⟨m, s.returnsPacked, args, s.isStatic, ⟨owner, name, split.desc⟩, axes, s.pack⟩

end EntrySpec

/-- The description of the call that moves a packed coordinate. -/
structure OffsetSpec where
  method : Text := []
  axes : List Text := []

/-- The description of a catalog. -/
structure CatalogSpec where
  unpacking : List Text := []
  offset : Option OffsetSpec := none
  sentinel : Option Sentinel := none
  methods : List (Text × EntrySpec) := []

/-- Why the description of a catalog is refused. -/
inductive CatalogError where
  | unpackingCount (n : Nat)
  | unpacking (index : Nat) (cause : AccessorError)
  | offsetKey (cause : KeyError)
  | offsetShape (desc : Text)
  | offsetCount
  | offsetAxis (index : Nat) (cause : AccessorError)
  | entry (key : Text) (cause : EntryError)

/-- The wording of the cause. -/
def CatalogError.message : CatalogError → Text
  | .unpackingCount n => "unpacking: exactly 3 methods expected, got " ++ Text.ofNat n
  | .unpacking i e => Text.concat ["unpacking ", Text.ofNat i, ": ", e.message]
  | .offsetKey e => "offset: " ++ e.message
  | .offsetShape d => "offset: (JL...;)J method expected, got " ++ d
  | .offsetCount => "offset: exactly 3 axes expected"
  | .offsetAxis i e => Text.concat ["offset axis ", Text.ofNat i, ": ", e.message]
  | .entry k e => Text.concat ["method ", Text.quote k, ": ", e.message]

namespace OffsetSpec

/-- The described call. -/
def build (s : OffsetSpec) : Except CatalogError OffsetCall := do
  let (m, f) ← match Member.parse s.method with
    | .error e => throw (.offsetKey e)
    | .ok r => pure r
  let fits := match f.params with
    | [a, b] => a = .long && b.isRef && f.result = .long
    | _ => false
  if !fits then throw (.offsetShape m.desc)
  match AxisMembers.parse "()I" s.axes with
  | .ok axes => return ⟨m, axes⟩
  | .error (.count _) => throw .offsetCount
  | .error (.accessor i e) => throw (.offsetAxis i e)

end OffsetSpec

namespace CatalogSpec

/-- The sentinel of a catalog that describes none: the greatest long and the greatest int. -/
def defaultSentinel : Sentinel := ⟨Int64.maxValue, Int32.maxValue⟩

/-- The described entries in the order of their keys. -/
def buildEntries : List (Text × EntrySpec) → Except CatalogError (List Entry)
  | [] => .ok []
  | (key, s) :: rest =>
    match s.build key with
    | .error e => .error (.entry key e)
    | .ok e => (buildEntries rest).map
        (insertSorted (fun a b : Entry => Text.le a.key.key b.key.key) e)

/-- The described catalog. -/
def build (s : CatalogSpec) : Except CatalogError Catalog := do
  let unpack ← match AxisMembers.parse "(J)I" s.unpacking with
    | .ok m => pure m
    | .error (.count n) => throw (.unpackingCount n)
    | .error (.accessor i e) => throw (.unpacking i e)
  let offset ← match s.offset with
    | none => pure none
    | some o => o.build.map some
  let entries ← buildEntries s.methods
  return ⟨entries, unpack, offset, s.sentinel.getD defaultSentinel⟩

end CatalogSpec

end CoordSplit
