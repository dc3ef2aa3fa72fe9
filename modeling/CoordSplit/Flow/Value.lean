import CoordSplit.IndexSet
import CoordSplit.Descriptor.Basic

/-!
# Abstract values

What is known about a value on the operand stack or in a local slot: its type, the instructions that
may have produced it and the local slots that it may have been loaded from. `Value.merge` joins what
is known on two paths; a slot about which nothing is known is `none`, the least element.
-/

set_option autoImplicit false

namespace CoordSplit

/-- What is known about a value. -/
structure Value where
  type : ValueType
  /-- The ids of the instructions that may have produced the value. -/
  prod : IndexSet
  /-- The local slots that the value may have been loaded from. -/
  slots : IndexSet

namespace Value

/-- A fresh value made by an instruction. -/
def produced (t : ValueType) (id : Nat) : Value := ⟨t, .singleton id, .empty⟩

/-- The number of slot words that the value takes. -/
def size (v : Value) : Nat := v.type.size

/-- Whether the value takes two slot words. -/
def isWide (v : Value) : Bool := v.size = 2

/-- Whether the same is known about both values. -/
def equal (v w : Value) : Bool := v.type = w.type && v.prod.equal w.prod && v.slots.equal w.slots

/-- A text that two values share iff they are equal. -/
def key (v : Value) : Text := Text.join "/" [v.type.desc, v.prod.key, v.slots.key]

/-- What is known if either may be the value. A value that already covers the other is kept. -/
def merge (v w : Value) : Value :=
  let m : Value := ⟨v.type.merge w.type, v.prod.union w.prod, v.slots.union w.slots⟩
  if m.equal v then v else m

/-- The value as it is shown. -/
def render (v : Value) : Text :=
  Text.concat [v.type.desc, " prod", v.prod.render, " slots", v.slots.render]

end Value

/-- What is known about a slot on two paths, and whether that is more than was known before. -/
def mergeUnset : Option Value → Option Value → Option Value × Bool
  | x, none => (x, false)
  | none, some w => (some w, true)
  | some v, some w =>
    let m := v.merge w
    (some m, !m.equal v)

end CoordSplit
