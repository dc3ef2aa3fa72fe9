import CoordSplit.Cbor.Basic
import CoordSplit.Flow.Value

/-!
# Sets and values in traces

Traces are binary. A set is a list whose size is left open, and a value is a map of its three parts.
-/

set_option autoImplicit false

namespace CoordSplit

/-- A set in a trace. -/
def IndexSet.trace (s : IndexSet) : Text :=
  [159] ++ Text.concat (s.toList.map fun (k : Nat) => Cbor.head 0 k) ++ [255]

/-- A value in a trace; a missing one is null. -/
def Value.trace : Option Value → Text
  | none => Cbor.null.encode
  | some v =>
    let key (name : String) : Text := (Cbor.ofText name).encode
    Text.concat [Cbor.head 5 3, key "type", (Cbor.ofText v.type.desc).encode, key "prod", v.prod.trace,
      key "slots", v.slots.trace]

end CoordSplit
