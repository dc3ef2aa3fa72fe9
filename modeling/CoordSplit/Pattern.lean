import CoordSplit.Catalog.Basic
import CoordSplit.Insn.Effect
import CoordSplit.SlotMap

/-!
# Patterns of packed coordinates

After the slots of a code have been moved, longs are still loaded from and stored to the first of the
three slots that an expanded slot became. A pattern is a short run of instructions that does something to
packed coordinates as a whole, and that can be replaced by instructions on their three parts.

`Pattern.recognise` says what to do with a run, without touching the code, and `scan` does it from left
to right. A scan leaves the instructions before its place as they are, and every replacement takes away
at least one load or store of an expanded slot and adds none.
-/

set_option autoImplicit false

namespace CoordSplit

/-- What is known besides the code when it is changed. -/
structure ExpansionContext where
  catalog : Catalog
  slots : SlotMap

namespace ExpansionContext

/-- Whether an instruction loads a packed coordinate from an expanded slot. -/
def isPackedLoad (c : ExpansionContext) : Insn → Bool
  | .var .lload slot => c.slots.isFirst slot
  | _ => false

/-- Whether an instruction pushes the packed sentinel. -/
def isSentinel (c : ExpansionContext) : Insn → Bool
  | .ldc (.long v) => v = c.catalog.sentinel.packed
  | _ => false

/-- Whether an instruction pushes a packed coordinate whose parts can be pushed one by one. -/
def isOperand (c : ExpansionContext) (x : Insn) : Bool := c.isPackedLoad x || c.isSentinel x

/-- The instruction that pushes one part of what an operand pushes. -/
def narrow (c : ExpansionContext) (x : Insn) (axis : Axis) : Insn :=
  match x with
  | .var _ slot => .var .iload (slot + axis.index)
  | _ => .ldc (.int c.catalog.sentinel.narrow)

end ExpansionContext

namespace Insn

/-- Whether an instruction pushes a reference and does nothing else. -/
def isRefPush : Insn → Bool
  | .var op _ => op = .aload
  | .field op m => op = .getstatic && (m.desc.head? = some 76 || m.desc.head? = some 91)
  | .plain op => op = .aconstNull
  | _ => false

/-- Whether an instruction pushes an int and does nothing else. -/
def isIntPush : Insn → Bool
  | .var op _ => op = .iload
  | .push op _ => op = .bipush || op = .sipush
  | .plain op => op.isIntConst
  | .ldc (.int _) => true
  | _ => false

/-- The call of an accessor. -/
def ofAccessor (m : Member) : Insn := .call .invokevirtual m false

end Insn

/-- The patterns. -/
inductive Pattern where
  | unpack
  | offset
  | compare
  | sentinel
  | accessors
  | pack
  | copy
  deriving DecidableEq

namespace Pattern

/-- The patterns in the order in which they are tried. -/
def all : List Pattern := [.unpack, .offset, .compare, .sentinel, .accessors, .pack, .copy]

/-- The name of a pattern in reports. -/
def name : Pattern → String
  | .unpack => "unpack"
  | .offset => "offset"
  | .compare => "compare"
  | .sentinel => "sentinel"
  | .accessors => "accessors"
  | .pack => "pack"
  | .copy => "copy"

/-- What to do with a run of instructions that a pattern recognises. -/
inductive Plan where
  /-- Replace the first `length` instructions. -/
  | replace (length : Nat) (out : List Insn)
  /-- Replace the first `length` instructions by some that can jump to a label put behind them. -/
  | branch (length : Nat) (out : InsnId → List Insn)
  /-- The first `length` instructions leave one packed coordinate on the stack. If the next one stores it
  in an expanded slot, replace them all by getting and storing the parts. A strict plan allows no other
  use of the coordinate. -/
  | store (length : Nat) (strict : Bool) (part : Axis → List Insn)
  /-- The instructions can be replaced by none; the last of them, a test by `op`, is to blame. -/
  | refuse (length : Nat) (op : Opcode)

/-- The tests on the parts of two operands that replace a test of both, which jumps to `target`. -/
def compareParts (c : ExpansionContext) (a b : Insn) (axis : Axis) (op : Opcode) (target : InsnId) :
    List Insn :=
  [c.narrow a axis, c.narrow b axis, .jump op target]

/-- The plan for comparing two operands and testing the result by `x`. -/
def comparePlan (c : ExpansionContext) (a b x : Insn) : Plan :=
  match x with
  | .jump .ifne target =>
    .replace 4 (Axis.all.flatMap fun axis => compareParts c a b axis .ifIcmpne target)
  | .jump .ifeq target =>
    .branch 4 fun skip => compareParts c a b .x .ifIcmpne skip ++ compareParts c a b .y .ifIcmpne skip ++
      compareParts c a b .z .ifIcmpeq target
  | _ => .refuse 4 x.opcode

/-- What a pattern does with a run of instructions, if it recognises how the run starts. -/
def recognise (c : ExpansionContext) : Pattern → List Insn → Option Plan
  | .unpack, .var .lload slot :: .call _ m _ :: _ =>
    if c.slots.isFirst slot then
      (c.catalog.unpackAxis? m).map fun axis => .replace 2 [.var .iload (slot + axis.index)]
    else none
  | .offset, x :: r :: .call _ m _ :: _ =>
    match c.catalog.offset with
    | some o =>
      if c.isPackedLoad x && r.isRefPush && o.method = m then
        some (.store 3 true fun axis =>
          [c.narrow x axis, r, .ofAccessor (o.axes.get axis), .plain .iadd])
      else none
    | none => none
  | .compare, a :: b :: .plain .lcmp :: x :: _ =>
    if c.isOperand a && c.isOperand b && (c.isPackedLoad a || c.isPackedLoad b) then
      some (comparePlan c a b x)
    else none
  | .sentinel, x :: _ => if c.isSentinel x then some (.store 1 false fun axis => [c.narrow x axis]) else none
  | .accessors, .var .aload slot :: .call _ m _ :: _ =>
    (c.catalog.lookup m).bind fun e => e.axes.map fun axes =>
      .store 2 false fun axis => [.var .aload slot, .ofAccessor (axes.get axis)]
  | .pack, x :: y :: z :: .call .invokestatic m _ :: _ =>
    (c.catalog.lookup m).bind fun e =>
      if e.pack && x.isIntPush && y.isIntPush && z.isIntPush then
        some (.store 4 false fun axis => match axis with
          | .x => [x]
          | .y => [y]
          | .z => [z])
      else none
  | .copy, x :: _ => if c.isPackedLoad x then some (.store 1 false fun axis => [c.narrow x axis]) else none
  | _, _ => none

end Pattern

/-- Why a run of instructions cannot be replaced. -/
inductive PatternError where
  | crossesFlow (id : InsnId)
  | consumedBy (id : InsnId) (op : Opcode)
  | comparedBy (id : InsnId) (op : Opcode)
  | remove (cause : Code.RemoveError)

namespace PatternError

/-- The failure as it is reported. -/
def diagnostic : PatternError → Diagnostic
  | .crossesFlow id =>
    .ofInconsistent id "unsupported pattern usage: packed value crosses control flow"
  | .consumedBy id op =>
    .ofInconsistent id ("unsupported pattern usage: packed value consumed by " ++ op.name)
  | .comparedBy id op => .ofInconsistent id (Text.concat
      ["packed values compared by ", op.name, ": only equality tests supported"])
  | .remove e => .plain e.message

end PatternError

/-- The opcode of the instruction that takes a long off the stack, where `above` words lie on it and the
given instructions follow; none if it survives a label or a branch. -/
def consumer? (above : Int) : List Insn → Option Opcode
  | [] => none
  | x :: rest =>
    if x.isLabel then none
    else match x.effect with
      | .error _ => none
      | .ok e =>
        if e.pop > above then some x.opcode
        else if !x.opcode.falls || !x.targets.isEmpty then none
        else consumer? (above - e.pop + e.push) rest

/-- The instructions are taken out of the code. -/
def Code.removeAll (c : Code) : List InsnId → Except Code.RemoveError Code
  | [] => .ok c
  | id :: rest => (c.remove id).bind fun c => c.removeAll rest

/-- The instructions `old`, the first of which is `first`, give way to `out`. -/
def Code.replace (c : Code) (first : InsnId) (old : List InsnId) (out : List Insn) :
    Outcome PatternError Code := do
  let (c, fresh) := c.insertBefore first out
  let _ ← Outcome.ofFault fresh
  Outcome.ofExcept .remove (c.removeAll old)

namespace Pattern

/-- A plan is carried out on a run of instructions. The result is nothing if the plan, not being strict,
does not fit what follows. -/
def carryOut (c : ExpansionContext) (code : Code) (run : List (InsnId × Insn)) (plan : Plan) :
    Outcome PatternError (Option Code) :=
  let ids := run.map Prod.fst
  let first := ids.headD .none
  let last (n : Nat) : InsnId := (ids[n - 1]?).getD .none
  match plan with
  | .replace n out => (code.replace first (ids.take n) out).map some
  | .branch n out => do
    let (code, fresh) := code.insertAfter (last n) [.label]
    let skip ← Outcome.ofFault fresh
    let code ← code.replace first (ids.take n) (out (skip.headD .none))
    return some code
  | .store n strict part =>
    match (run.drop n).map Prod.snd with
    | .var .lstore slot :: rest =>
      if c.slots.isFirst slot then
        (code.replace first (ids.take (n + 1)) (Axis.all.flatMap fun axis =>
          part axis ++ [.var .istore (slot + axis.index)])).map some
      else if strict then misused n (.var .lstore slot :: rest)
      else .ok none
    | rest => if strict then misused n rest else .ok none
  | .refuse n op => .fail (.comparedBy (last n) op)
where
  /-- The refusal of a coordinate that is not stored at once. -/
  misused (n : Nat) (rest : List Insn) : Outcome PatternError (Option Code) :=
    let last : InsnId := (run[n - 1]?.map Prod.fst).getD .none
    match consumer? 0 rest with
    | none => .fail (.crossesFlow last)
    | some op => .fail (.consumedBy last op)

/-- The first pattern of a list that replaces something at the start of a run. -/
def applyFirst (c : ExpansionContext) (code : Code) (run : List (InsnId × Insn)) : List Pattern →
    Except (Pattern × Failure PatternError) (Option (Pattern × Code))
  | [] => .ok none
  | p :: rest =>
    match p.recognise c (run.map Prod.snd) with
    | none => applyFirst c code run rest
    | some plan =>
      match carryOut c code run plan with
      | .error e => .error (p, e)
      | .ok none => applyFirst c code run rest
      | .ok (some code) => .ok (some (p, code))

/-- The first place in a run at which a pattern replaces something; `i` is the place of the run in the
code. -/
def applyNext (c : ExpansionContext) (code : Code) : Nat → List (InsnId × Insn) →
    Except (Pattern × Failure PatternError) (Option (Nat × Pattern × Code))
  | _, [] => .ok none
  | i, x :: rest =>
    match applyFirst c code (x :: rest) all with
    | .error e => .error e
    | .ok (some (p, code)) => .ok (some (i, p, code))
    | .ok none => applyNext c code (i + 1) rest

end Pattern

/-- How far replacing patterns has come. -/
structure PatternRun where
  code : Code
  /-- The patterns that were replaced, last first. -/
  applied : List Pattern
  /-- The pattern that could not be replaced, and why. -/
  failed : Option (Pattern × Failure PatternError)

namespace PatternRun

/-- Patterns are replaced from the `i`-th instruction on, at most `fuel` of them. A place is left only
when no pattern is found there. -/
def scan (c : ExpansionContext) : Nat → Nat → PatternRun → PatternRun
  | 0, _, r => r
  | fuel + 1, i, r =>
    match Pattern.applyNext c r.code i (r.code.listing.drop i) with
    | .error e => { r with failed := some e }
    | .ok none => r
    | .ok (some (i, p, code)) => scan c fuel i { r with code := code, applied := p :: r.applied }

/-- The number of loads and stores of expanded slots in a code. -/
def packedAccesses (c : ExpansionContext) (code : Code) : Nat :=
  code.listing.countP fun p => match p.2 with
    | .var .lload slot | .var .lstore slot => c.slots.isFirst slot
    | _ => false

/-- All patterns of a code are replaced. -/
def ofCode (c : ExpansionContext) (code : Code) : PatternRun :=
  scan c (packedAccesses c code + 1) 0 ⟨code, [], none⟩

/-- The number of times that each pattern was replaced, by name, without those that never were. -/
def counts (r : PatternRun) : List (String × Nat) :=
  let names : List Pattern := [.accessors, .compare, .copy, .offset, .pack, .sentinel, .unpack]
  names.filterMap fun p =>
    let n := r.applied.count p
    if n = 0 then none else some (p.name, n)

end PatternRun

/-- A load or a store of an expanded slot that nothing replaced. -/
structure Leftover where
  id : InsnId
  op : Opcode
  slot : Int

namespace Leftover

/-- The failure as it is reported. -/
def diagnostic (l : Leftover) : Diagnostic := .ofInconsistent l.id (Text.concat
  [l.op.name, " of expanded slot ", Text.ofInt l.slot, " left after rewriting"])

/-- The first leftover of a code. -/
def find? (m : SlotMap) (code : Code) : Option Leftover :=
  code.listing.findSome? fun p => match p.2 with
    | .var op slot =>
      if (op = .lload ∨ op = .lstore) ∧ m.isFirst slot then some ⟨p.1, op, slot⟩ else none
    | _ => none

end Leftover

end CoordSplit
