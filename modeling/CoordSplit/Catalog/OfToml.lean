import CoordSplit.Catalog.Spec
import CoordSplit.Toml.Basic

/-!
# Descriptions of catalogs from tables of keys

Fields are found by their name, or else by their name in another case. A value of another kind is refused;
only in place of the table of methods any value will do, and says nothing. Keys that are no fields are
collected, so that they can be reported.
-/

set_option autoImplicit false

namespace CoordSplit

-- Powers are the built-in ones, whatever else is in scope.
attribute [local instance (2000)] instPowNat

namespace Toml

/-- The value of a field. -/
def Table.field? (t : Table) (name : String) : Option Tree :=
  let exact : Text := name
  match t.lookup exact with
  | some x => some x
  | none => (t.find? fun p => Text.lower p.1 = exact).map Prod.snd

/-- What is read from a field; a field that is missing has its default. -/
def Table.read {α : Type} (t : Table) (name : String) (f : Tree → Option α) (otherwise : α) :
    Option α :=
  match t.field? name with
  | none => some otherwise
  | some x => f x

namespace Tree

/-- A text. -/
def text? : Tree → Option Text
  | .text t => some t
  | _ => none

/-- A whole number of a word with the given size. -/
def int? (bits : Nat) : Tree → Option Int
  | .int i => if -2 ^ (bits - 1) ≤ i ∧ i < 2 ^ (bits - 1) then some i else none
  | _ => none

/-- A truth value. -/
def truth? : Tree → Option Bool
  | .truth b => some b
  | _ => none

/-- A list. -/
def list? {α : Type} (f : Tree → Option α) : Tree → Option (List α)
  | .list items => items.mapM f
  | _ => none

/-- A record that is read from a table. -/
def record? {α : Type} (f : Table → Option α) : Tree → Option α
  | .table _ fields => f fields
  | _ => none

end Tree

end Toml

open Toml

/-- The description of an entry. -/
def EntrySpec.ofTable? (t : Table) : Option EntrySpec := do
  return {
    returnsPacked := ← t.read "returns_packed" Tree.truth? false
    packedArgs := ← t.read "packed_args" (Tree.list? (Tree.int? 64)) []
    isStatic := ← t.read "static" Tree.truth? false
    rename := ← t.read "rename" Tree.text? []
    axes := ← t.read "axes" (Tree.list? Tree.text?) []
    pack := ← t.read "pack" Tree.truth? false }

/-- The description of the call that moves a coordinate. -/
def OffsetSpec.ofTable? (t : Table) : Option OffsetSpec := do
  return ⟨← t.read "method" Tree.text? [], ← t.read "axes" (Tree.list? Tree.text?) []⟩

/-- The sentinel: a long and an int. -/
def Sentinel.ofTable? (t : Table) : Option Sentinel := do
  let narrow ← t.read "narrow" (Tree.int? 32) 0
  return ⟨Int64.ofInt (← t.read "packed" (Tree.int? 64) 0), Int32.ofInt narrow⟩

/-- The entries by their keys. -/
def EntrySpec.allOfTree? : Tree → Option (List (Text × EntrySpec))
  | .table _ fields => fields.mapM fun p => (Tree.record? EntrySpec.ofTable? p.2).map fun e => (p.1, e)
  | _ => some []

/-- The description of a catalog. -/
def CatalogSpec.ofTable? (t : Table) : Option CatalogSpec := do
  return {
    unpacking := ← t.read "unpacking" (Tree.list? Tree.text?) []
    offset := ← t.read "offset" (fun x => (Tree.record? OffsetSpec.ofTable? x).map some) none
    sentinel := ← t.read "sentinel" (fun x => (Tree.record? Sentinel.ofTable? x).map some) none
    methods := ← t.read "methods" EntrySpec.allOfTree? [] }

namespace CatalogSpec

/-- Whether a part of a key names one of some fields. -/
def isField (names : List String) (part : Text) : Bool :=
  (names.map Text.ofString).contains (Text.lower part)

/-- Whether a key of a document says something about a catalog. -/
def isKnownKey (t : Table) (path : Path) : Bool :=
  let methods := match t.field? "methods" with
    | some (.table _ _) => true
    | _ => false
  match path with
  | [k] => isField ["unpacking", "offset", "sentinel", "methods"] k
  | [k, f] => (isField ["offset"] k && isField ["method", "axes"] f) ||
      (isField ["sentinel"] k && isField ["packed", "narrow"] f) || (isField ["methods"] k && methods)
  | [k, _, f] => isField ["methods"] k && methods &&
      isField ["returns_packed", "packed_args", "static", "rename", "axes", "pack"] f
  | _ => false

end CatalogSpec

end CoordSplit
