import CoordSplit.Catalog.Basic

/-!
# Listings of catalogs
-/

set_option autoImplicit false

namespace CoordSplit

/-- The lines about an entry: its key, how its result is taken apart, and the call instead of it. -/
def Entry.listing (e : Entry) : List Text :=
  let parts : List Text :=
    if e.pack then ["    pack"]
    else match e.axes with
      | some m => [Text.concat ["    axes ", Text.join [32] (m.toList.map Member.name)]]
      | none => []
  let args : List Text :=
    if e.packedArgs.isEmpty then []
    else [Text.concat ["    packed args [", Text.join [32] (e.packedArgs.map Text.ofInt), "] -> ",
      e.replacement.key]]
  Text.concat ["  ", e.key.key] :: (parts ++ args)

namespace Catalog

/-- The lines about the calls that give one axis. -/
def unpackListing (c : Catalog) : List Text :=
  "unpacking:" :: Axis.all.map fun a =>
    Text.concat ["  ", [120 + a.index.toUInt8], " ", (c.unpack.get a).key]

/-- The lines about the call that moves a coordinate. -/
def offsetListing (c : Catalog) : List Text :=
  match c.offset with
  | none => []
  | some o => Text.concat ["offset: ", o.method.key] :: o.axes.toList.map fun m => Text.concat ["  ", m.key]

/-- What a catalog knows, for reading. -/
def listing (c : Catalog) : Text :=
  let sentinel := Text.concat
    ["sentinel: ", Text.ofInt c.sentinel.packed.toInt, " -> ", Text.ofInt c.sentinel.narrow.toInt]
  let ls : List Text := c.unpackListing ++ c.offsetListing ++ [sentinel, "methods:"] ++
    c.entries.flatMap Entry.listing
  Text.concat (ls.map fun l => l ++ [10])

end Catalog

end CoordSplit
