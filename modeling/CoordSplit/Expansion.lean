import CoordSplit.Catalog.Basic
import CoordSplit.Flow.Analysis
import CoordSplit.SlotMap

/-!
# Expansion sets

The expansion set of a method holds the local slots whose longs are packed coordinates. It starts with
the slots that calls of the catalog read from or are stored to, and is closed under comparing and
copying: what is compared with a packed coordinate, or copied to or from one, is packed as well.
-/

set_option autoImplicit false

namespace CoordSplit

/-- Why a method has no expansion set. -/
inductive ExpansionError where
  | call (id : InsnId) (cause : CallError)
  | position (id : InsnId) (position : Int) (count : Nat)
  | access (cause : AccessError)

namespace ExpansionError

/-- The failure as it is reported. -/
def diagnostic : ExpansionError → Diagnostic
  | .call id e => .ofMalformed id e.message
  | .position id p n => .ofInconsistent id (Text.concat
      ["catalog position ", Text.ofInt p, " out of ", Text.ofNat n, " arguments"])
  | .access e => e.diagnostic

end ExpansionError

/-- Whether a descriptor has a long in it; `inName` tells whether the text starts in a class name. -/
def mentionsLongFrom : Bool → Text → Bool
  | _, [] => false
  | true, b :: rest => mentionsLongFrom (b ≠ 59) rest
  | false, b :: rest => b = 74 || mentionsLongFrom (b = 76) rest

/-- Whether a descriptor has a long in it. -/
def mentionsLong (desc : Text) : Bool := mentionsLongFrom false desc

/-- Whether a value may come from an expanded slot. -/
def Value.isPacked (v : Value) (expanded : IndexSet) : Bool := v.slots.intersects expanded

namespace Analysis

/-- The instruction of an id. -/
def insn? (a : Analysis) (id : InsnId) : Option Insn := a.layout.method.code.get? id

/-- The reachable instructions with the frames before them. -/
def reachable (a : Analysis) : List ((InsnId × Insn) × Frame) :=
  a.framed.filterMap fun p => p.2.map fun f => (p.1, f)

/-- The slots to which a value is stored as a long. -/
def storedTo (a : Analysis) (v : Value) : List Int :=
  (a.consumers v).toList.filterMap fun (id : Nat) => match a.insn? id with
    | some (.var .lstore slot) => some slot
    | _ => none

end Analysis

/-- What starts an expansion set. -/
structure Seed where
  slots : IndexSet
  /-- The warnings, last first. -/
  warnings : List Text

namespace Seed

/-- The slots of the arguments at the given positions join the set. -/
def joinArgs (id : InsnId) (args : List Value) : List Int → Seed →
    Seed × Outcome ExpansionError Unit
  | [], s => (s, .ok ())
  | p :: rest, s =>
    match args[p.toNat]? with
    | none => (s, .fail (.position id p args.length))
    | some v => joinArgs id args rest { s with slots := s.slots.union v.slots }

/-- The slots join the set. -/
def joinSlots : List Int → Seed → Seed × Outcome ExpansionError Unit
  | [], s => (s, .ok ())
  | k :: rest, s =>
    match s.slots.insert? k with
    | .error f => (s, .error (.fault f))
    | .ok t => joinSlots rest { s with slots := t }

/-- What a call adds: the slots of its packed arguments, and those that its packed result is stored to.
A call of which the catalog knows nothing is worth a warning if it may take or give packed coordinates. -/
def joinCall (cat : Catalog) (a : Analysis) (id : InsnId) (op : Opcode) (m : Member) (f : Frame)
    (s : Seed) : Seed × Outcome ExpansionError Unit :=
  match cat.lookup m with
  | none =>
    if !cat.knows m && mentionsLong m.desc then
      let w := Text.concat ["insn ", Text.ofInt id, ": unknown call ", m.key, " takes or returns long"]
      ({ s with warnings := w :: s.warnings }, .ok ())
    else (s, .ok ())
  | some e =>
    match f.callArgs op m with
    | .error c => (s, .fail (.call id c))
    | .ok args =>
      match joinArgs id args e.positions s with
      | (s, .error x) => (s, .error x)
      | (s, .ok ()) =>
        match e.returnsPacked, a.value? id with
        | true, some v => joinSlots (a.storedTo v) s
        | _, _ => (s, .ok ())

/-- The calls of a method add to the set one after the other. -/
def joinCalls (cat : Catalog) (a : Analysis) : List ((InsnId × Insn) × Frame) → Seed →
    Seed × Outcome ExpansionError Unit
  | [], s => (s, .ok ())
  | ((id, .call op m _), f) :: rest, s =>
    match joinCall cat a id op m f s with
    | (s, .error x) => (s, .error x)
    | (s, .ok ()) => joinCalls cat a rest s
  | _ :: rest, s => joinCalls cat a rest s

/-- The seed of a method, also given as far as it got when a call is refused. -/
def ofAnalysis (cat : Catalog) (a : Analysis) : Seed × Outcome ExpansionError Unit :=
  joinCalls cat a a.reachable ⟨.empty, []⟩

end Seed

namespace Expansion

/-- What a use of the packed value `v` adds to the set: the other side of a comparison, or the slot that
it is stored to. -/
def growUse (a : Analysis) (v : Value) (user : InsnId) (s : IndexSet) : IndexSet :=
  match a.insn? user, a.frame? user with
  | some (.plain .lcmp), some f =>
    match f.stack with
    | w :: rest => if w.equal v then (rest.head?.map fun u => s.union u.slots).getD s else s.union w.slots
    | [] => s
  | some (.var .lstore slot), _ => if s.contains slot then s else s.insert slot.toNat
  | _, _ => s

/-- What an instruction adds to the set: if it loads an expanded slot, what the uses of the value add, and
if it stores to one, the slots of the stored value. -/
def growInsn (a : Analysis) (s : IndexSet) (p : (InsnId × Insn) × Frame) : IndexSet :=
  match p with
  | ((id, .var .lload slot), _) =>
    if s.contains slot then
      match a.value? id with
      | some v => (a.consumers v).toList.foldl (fun s (user : Nat) => growUse a v user s) s
      | none => s
    else s
  | ((_, .var .lstore slot), f) =>
    if s.contains slot then (f.stack.head?.map fun v => s.union v.slots).getD s else s
  | _ => s

/-- One round over the code. -/
def growRound (a : Analysis) (s : IndexSet) : IndexSet := a.reachable.foldl (growInsn a) s

/-- Rounds until one adds nothing, and their number, at most `fuel`. -/
def growRounds (a : Analysis) : Nat → IndexSet → IndexSet × Nat
  | 0, s => (s, 0)
  | fuel + 1, s =>
    let t := growRound a s
    if t.equal s then (t, 1)
    else
      let (u, n) := growRounds a fuel t
      (u, n + 1)

/-- A number of rounds that suffices: each but the last one adds a slot that occurs in the code or in a
frame. -/
def roundBound (a : Analysis) : Nat :=
  max a.layout.slotBound ((a.before.filterMap id).foldl (fun n f => max n f.locals.length) 0) + 2

/-- The least closed set above a set, and the number of rounds that it took. -/
def close (a : Analysis) (s : IndexSet) : IndexSet × Nat := growRounds a (roundBound a) s

/-- An instruction of an expansion set's method uses expanded slots as longs only, and no long of it
reaches into an expanded slot. -/
def checkInsn (expanded : IndexSet) (id : InsnId) (x : Insn) : Except ExpansionError Unit :=
  match x.checkAccess expanded id with
  | .error e => .error (.access e)
  | .ok () =>
    match x with
    | .var op slot =>
      match op.varType? with
      | some t => if t.size = 2 ∧ expanded.contains (slot + 1) then
          .error (.access (.overlap id op slot (slot + 1))) else .ok ()
      | none => .ok ()
    | _ => .ok ()

/-- The whole code is checked, also what is not reachable; the first refusal is reported. -/
def check (a : Analysis) (expanded : IndexSet) : Except ExpansionError Unit :=
  a.layout.lines.toList.forM fun p => checkInsn expanded p.1 p.2

/-- The reachable calls that have nothing to do with packed coordinates: unknown and without longs. -/
def unknownCalls (cat : Catalog) (a : Analysis) : List Member :=
  a.reachable.filterMap fun p => match p.1.2 with
    | .call _ m _ => if cat.knows m || mentionsLong m.desc then none else some m
    | _ => none

end Expansion

/-- The expansion set of a method. -/
structure Expansion where
  slots : IndexSet
  /-- The number of rounds that closing took. -/
  rounds : Nat
  warnings : List Text
  unknown : List Member

namespace Expansion

/-- The expansion set of a method: the closed seed, if every instruction fits it. -/
def solve (cat : Catalog) (a : Analysis) : Outcome ExpansionError Expansion := do
  let (seed, ended) := Seed.ofAnalysis cat a
  ended
  let (slots, rounds) := close a seed.slots
  Outcome.lift (check a slots)
  return ⟨slots, rounds, seed.warnings.reverse, unknownCalls cat a⟩

end Expansion

end CoordSplit
