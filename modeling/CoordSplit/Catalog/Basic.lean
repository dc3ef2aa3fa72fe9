import CoordSplit.Insn.Basic

/-!
# Catalogs

A catalog says which calls take or give a packed coordinate: three ints `x`, `y`, `z` in one long. It
names the calls that take one axis out of a packed coordinate, the call that moves one by a direction,
and the long that stands for "no coordinate".
-/

set_option autoImplicit false

namespace CoordSplit

/-- The three parts of a coordinate. -/
inductive Axis where
  | x
  | y
  | z
  deriving DecidableEq

namespace Axis

/-- The axes in the order in which their parts are stored. -/
def all : List Axis := [.x, .y, .z]

/-- The place of an axis among the three. -/
def index : Axis → Nat
  | .x => 0
  | .y => 1
  | .z => 2

end Axis

/-- One member per axis. -/
structure AxisMembers where
  x : Member
  y : Member
  z : Member
  deriving DecidableEq

namespace AxisMembers

/-- The member for an axis. -/
def get (m : AxisMembers) : Axis → Member
  | .x => m.x
  | .y => m.y
  | .z => m.z

/-- The members in the order of the axes. -/
def toList (m : AxisMembers) : List Member := Axis.all.map m.get

end AxisMembers

/-- The call that moves a packed coordinate by a direction, and what gives the steps of the direction. -/
structure OffsetCall where
  method : Member
  axes : AxisMembers
  deriving DecidableEq

/-- The packed long that stands for no coordinate, and the int that stands for it on each axis. -/
structure Sentinel where
  packed : Int64
  narrow : Int32
  deriving DecidableEq

/-- What is known about a method that takes or gives packed coordinates. -/
structure Entry where
  key : Member
  returnsPacked : Bool
  /-- The indices of the packed parameters in ascending order, without the receiver. -/
  packedArgs : List Int
  isStatic : Bool
  /-- The method to call instead, which takes three ints for each packed parameter. -/
  replacement : Member
  /-- The methods of the receiver that give the three parts of the packed result. -/
  axes : Option AxisMembers
  /-- Whether the method packs its three int parameters. -/
  pack : Bool
  deriving DecidableEq

namespace Entry

/-- The positions of the packed parameters among the values that a call takes, receiver included. -/
def positions (e : Entry) : List Int := e.packedArgs.map fun i => if e.isStatic then i else i + 1

/-- Whether the three parts of the packed result can be had instead of the result. -/
def isProducer (e : Entry) : Bool := e.pack || e.axes.isSome

/-- The method that gives a part of the result; the empty member if there is none. -/
def axisMember (e : Entry) (axis : Axis) : Member :=
  match e.axes with
  | some m => m.get axis
  | none => ⟨[], [], []⟩

end Entry

/-- What is known about calls. -/
structure Catalog where
  /-- The entries in the order of their keys. -/
  entries : List Entry
  /-- The calls that take one axis out of a packed coordinate. -/
  unpack : AxisMembers
  offset : Option OffsetCall
  sentinel : Sentinel
  deriving DecidableEq

namespace Catalog

/-- The entry of a method. -/
def lookup (c : Catalog) (m : Member) : Option Entry := c.entries.find? fun e => e.key = m

/-- The axis that a method takes out of a packed coordinate. -/
def unpackAxis? (c : Catalog) (m : Member) : Option Axis := Axis.all.find? fun a => c.unpack.get a = m

/-- Whether a method is the one that moves a packed coordinate. -/
def isOffset (c : Catalog) (m : Member) : Bool :=
  match c.offset with
  | some o => o.method = m
  | none => false

/-- Whether the catalog says anything about a method. -/
def knows (c : Catalog) (m : Member) : Bool :=
  (c.lookup m).isSome || (c.unpackAxis? m).isSome || c.isOffset m

end Catalog

end CoordSplit
