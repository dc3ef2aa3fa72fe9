import CoordSplit.Catalog.Spec
import CoordSplit.Yaml.Node

/-!
# Descriptions of catalogs from read documents
-/

set_option autoImplicit false

namespace CoordSplit

/-- The description of an entry. -/
def EntrySpec.ofNode? : Yaml.Node → Option (Option EntrySpec) :=
  Yaml.Node.record? ["returns_packed", "packed_args", "static", "rename", "axes", "pack"] fun l => do
    return {
      returnsPacked := ← Yaml.Node.boolField l "returns_packed"
      packedArgs := ← Yaml.Node.listField l "packed_args" (Yaml.Node.int? 64)
      isStatic := ← Yaml.Node.boolField l "static"
      rename := ← Yaml.Node.textField l "rename"
      axes := ← Yaml.Node.listField l "axes" Yaml.Node.text?
      pack := ← Yaml.Node.boolField l "pack" }

/-- The description of the call that moves a coordinate. -/
def OffsetSpec.ofNode? : Yaml.Node → Option (Option OffsetSpec) :=
  Yaml.Node.record? ["method", "axes"] fun l => do
    return ⟨← Yaml.Node.textField l "method", ← Yaml.Node.listField l "axes" Yaml.Node.text?⟩

/-- The sentinel: a long and an int. -/
def Sentinel.ofNode? : Yaml.Node → Option (Option Sentinel) :=
  Yaml.Node.record? ["packed", "narrow"] fun l => do
    let narrow ← Yaml.Node.field l "narrow" (Yaml.Node.int? 32) 0
    return ⟨Int64.ofInt (← Yaml.Node.intField l "packed"), Int32.ofInt narrow⟩

/-- The entries by their keys. -/
def EntrySpec.allOfNode? (n : Yaml.Node) : Option (Option (List (Text × EntrySpec))) :=
  match n.entries? with
  | none => none
  | some none => some none
  | some (some l) =>
    (l.mapM fun p => (EntrySpec.ofNode? p.2).map fun e => (p.1, e.getD {})).map some

/-- The description of a catalog; a node that stands for nothing describes an empty one. -/
def CatalogSpec.ofNode? (n : Yaml.Node) : Option CatalogSpec :=
  let read := Yaml.Node.record? ["unpacking", "offset", "sentinel", "methods"] fun l => do
    return ({
      unpacking := ← Yaml.Node.listField l "unpacking" Yaml.Node.text?
      offset := ← Yaml.Node.field l "offset" (fun n => (OffsetSpec.ofNode? n).map some) none
      sentinel := ← Yaml.Node.field l "sentinel" (fun n => (Sentinel.ofNode? n).map some) none
      methods := ← Yaml.Node.field l "methods" EntrySpec.allOfNode? [] } : CatalogSpec)
  (read n).map fun c => c.getD {}

end CoordSplit
