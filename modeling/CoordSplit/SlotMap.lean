import CoordSplit.StackDepth
import CoordSplit.IndexSet

/-!
# Slot maps

When a local slot is expanded, the long in it, two words wide, makes room for three ints, so every
later slot moves up by one for each expanded slot before it. A slot map does that to the instructions of
a code. It refuses instructions that use an expanded slot as anything but a long, or half of it.

Slots are signed integers of 64 bits, and nothing keeps an instruction from naming one of the greatest. A
slot that is moved past the greatest one comes round to the least.
-/

set_option autoImplicit false

namespace CoordSplit

/-- A use of local slots that does not fit a set of expanded slots. -/
inductive AccessError where
  | access (id : InsnId) (op : Opcode) (slot : Int)
  | overlap (id : InsnId) (op : Opcode) (slot expanded : Int)
  | increment (id : InsnId) (slot : Int)

namespace AccessError

/-- The failure as it is reported: the method cannot be transformed. -/
def diagnostic : AccessError → Diagnostic
  | .access id op slot =>
    .ofInconsistent id (Text.concat [op.name, " of expanded slot ", Text.ofInt slot])
  | .overlap id op slot e => .ofInconsistent id (Text.concat
      [op.name, " of slot ", Text.ofInt slot, " overlapping expanded slot ", Text.ofInt e])
  | .increment id slot => .ofInconsistent id ("increment of expanded slot " ++ Text.ofInt slot)

end AccessError

/-- An instruction may load and store an expanded slot as a long, and may not touch its second word. -/
def Insn.checkAccess (expanded : IndexSet) (id : InsnId) : Insn → Except AccessError Unit
  | .var op slot =>
    if expanded.contains slot ∧ op ≠ .lload ∧ op ≠ .lstore then .error (.access id op slot)
    else if expanded.contains (slot - 1) then .error (.overlap id op slot (slot - 1))
    else .ok ()
  | .iinc slot _ => if expanded.contains slot then .error (.increment id slot) else .ok ()
  | _ => .ok ()

namespace Slot

-- Powers are the built-in ones, whatever else is in scope.
attribute [local instance (2000)] instPowNat

/-- One more than the greatest slot. -/
def limit : Int := (2 ^ (63 : Nat) : Nat)

/-- The slot `n` places further up. A slot that is a 64-bit integer stays one: behind the greatest comes
the least. -/
def up (slot : Int) (n : Nat) : Int :=
  if slot < limit ∧ limit ≤ slot + n then slot + n - 2 * limit else slot + n

end Slot

/-- Where local slots go when some of them are expanded. -/
structure SlotMap where
  /-- The slots that are expanded. -/
  expanded : IndexSet
  /-- The new slots in which the expanded ones start. -/
  firsts : IndexSet

namespace SlotMap

/-- The place of a slot: each expanded slot before it moves it up by one. -/
def place (expanded : IndexSet) (slot : Int) : Int := slot + expanded.countBelow slot

/-- The map for a set of expanded slots. The set has a bit for each number up to its members, so the places
of these are far below the greatest slot. -/
def ofSlots (expanded : IndexSet) : SlotMap :=
  ⟨expanded, expanded.toList.foldl (fun s (k : Nat) => s.insert (place expanded k).toNat) .empty⟩

/-- The new slot for a slot: its place, if that is a slot. -/
def map (m : SlotMap) (slot : Int) : Int := Slot.up slot (m.expanded.countBelow slot)

/-- Whether a slot is expanded. -/
def isExpanded (m : SlotMap) (slot : Int) : Bool := m.expanded.contains slot

/-- Whether a new slot is the first of three that an expanded slot became. -/
def isFirst (m : SlotMap) (slot : Int) : Bool := m.firsts.contains slot

/-- The instruction with its slot moved. -/
def mapInsn (m : SlotMap) : Insn → Insn
  | .var op slot => .var op (m.map slot)
  | .iinc slot delta => .iinc (m.map slot) delta
  | x => x

/-- A code whose slots have been moved up to the first instruction that is refused. -/
structure Moved where
  code : Code
  /-- Whether any instruction changed. -/
  changed : Bool
  refused : Option AccessError

/-- The instructions are moved one after the other. -/
def moveAll (m : SlotMap) : List (InsnId × Insn) → Moved → Moved
  | [], r => r
  | (id, x) :: rest, r =>
    match x.checkAccess m.expanded id with
    | .error e => { r with refused := some e }
    | .ok () =>
      let y := m.mapInsn x
      if y = x then m.moveAll rest r
      else m.moveAll rest { r with code := r.code.modify id fun n => { n with insn := y }, changed := true }

/-- The code with every slot moved. -/
def apply (m : SlotMap) (c : Code) : Moved := m.moveAll c.listing ⟨c, false, none⟩

end SlotMap

end CoordSplit
