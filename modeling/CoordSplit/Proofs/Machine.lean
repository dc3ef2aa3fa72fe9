import CoordSplit.Pattern
import Mathlib.Logic.Function.Basic
import Mathlib.Tactic

/-!
# Running code on coordinates

A machine for the instructions that take part in patterns and in pushing parts. A packed coordinate is one value on its stack, a
triple of ints. Locals hold words; the triple of an expanded slot is held by the three slots that the slot
became, so a long is loaded from and stored to three of them. The calls of the catalog are pure: they take
a part out of a coordinate, put one together, move one, or ask the receiver for one.

What a word holds as an int or as a reference, what a static field holds, what an accessor gives and how
two different coordinates compare is up to the machine (`Meaning`). Nothing proved here depends on it.
-/

set_option autoImplicit false

namespace CoordSplit

/-- The three parts of a coordinate. -/
@[ext] structure Coord where
  x : Int32
  y : Int32
  z : Int32
  deriving DecidableEq

namespace Coord

/-- The part of a coordinate on an axis. -/
def get (p : Coord) : Axis → Int32
  | .x => p.x
  | .y => p.y
  | .z => p.z

/-- The coordinate with the given parts. -/
def ofParts (f : Axis → Int32) : Coord := ⟨f .x, f .y, f .z⟩

@[simp] theorem get_ofParts (f : Axis → Int32) (axis : Axis) : (ofParts f).get axis = f axis := by
  cases axis <;> rfl

end Coord

namespace Machine

/-- What code leaves open: words, static fields, accessors and the order of coordinates. -/
structure Meaning (R W : Type) where
  /-- The int in a word. -/
  toInt : W → Int32
  /-- The word that holds an int. -/
  ofInt : Int32 → W
  /-- The reference in a word. -/
  toRef : W → R
  null : R
  /-- The reference in a static field. -/
  global : Member → R
  /-- What an accessor gives for a receiver. -/
  accessor : Member → R → Int32
  /-- How two coordinates compare: `0` iff they are equal. -/
  compare : Coord → Coord → Int32
  compare_eq_zero : ∀ p q, compare p q = 0 ↔ p = q

/-- A value on the stack. -/
inductive Value (R : Type) where
  | int (v : Int32)
  | ref (r : R)
  | packed (p : Coord)

/-- Whether a value takes one word on the stack. -/
def Value.isNarrow {R : Type} : Value R → Bool
  | .packed _ => false
  | _ => true

/-- The stack, top first, and the local slots. -/
@[ext] structure State (R W : Type) where
  stack : List (Value R)
  locals : Int → W

/-- Where running goes on, and in which state: at a branch target, or behind the code that was run. -/
abbrev Exit (R W : Type) := Option InsnId × State R W

variable {R W : Type}

namespace State

/-- The state with one more value on the stack, behind the instruction that pushed it. -/
def push (s : State R W) (v : Value R) : Option (Exit R W) := some (none, { s with stack := v :: s.stack })

/-- The state with a word in a slot. -/
def setLocal (s : State R W) (slot : Int) (w : W) : State R W :=
  { s with locals := Function.update s.locals slot w }

/-- The triple of ints in three slots. -/
def triple (M : Meaning R W) (s : State R W) (slot : Int) : Coord :=
  .ofParts fun axis => M.toInt (s.locals (slot + axis.index))

/-- The state with a triple of ints in three slots. -/
def setTriple (M : Meaning R W) (s : State R W) (slot : Int) (p : Coord) : State R W :=
  ((s.setLocal (slot + Axis.x.index) (M.ofInt p.x)).setLocal (slot + Axis.y.index) (M.ofInt p.y)).setLocal
    (slot + Axis.z.index) (M.ofInt p.z)

end State

/-- The value of a small int constant. -/
def intConst? : Opcode → Option Int32
  | .iconstM1 => some (-1)
  | .iconst0 => some 0
  | .iconst1 => some 1
  | .iconst2 => some 2
  | .iconst3 => some 3
  | .iconst4 => some 4
  | .iconst5 => some 5
  | _ => none

variable (c : ExpansionContext) (M : Meaning R W)

/-- A load or a store. -/
def execVar (op : Opcode) (slot : Int) (s : State R W) : Option (Exit R W) :=
  match op with
  | .iload => s.push (.int (M.toInt (s.locals slot)))
  | .aload => s.push (.ref (M.toRef (s.locals slot)))
  | .lload => if c.slots.isFirst slot then s.push (.packed (s.triple M slot)) else none
  | .istore =>
    match s.stack with
    | .int v :: rest => some (none, { s with stack := rest }.setLocal slot (M.ofInt v))
    | _ => none
  | .lstore =>
    match s.stack with
    | .packed p :: rest =>
      if c.slots.isFirst slot then some (none, { s with stack := rest }.setTriple M slot p) else none
    | _ => none
  | _ => none

/-- An instruction without operands. -/
def execPlain (op : Opcode) (s : State R W) : Option (Exit R W) :=
  match op with
  | .aconstNull => s.push (.ref M.null)
  | .iadd =>
    match s.stack with
    | .int w :: .int v :: rest => some (none, { s with stack := .int (v + w) :: rest })
    | _ => none
  | .lcmp =>
    match s.stack with
    | .packed q :: .packed p :: rest => some (none, { s with stack := .int (M.compare p q) :: rest })
    | _ => none
  | .pop =>
    match s.stack with
    | v :: rest => if v.isNarrow then some (none, { s with stack := rest }) else none
    | _ => none
  | .dup =>
    match s.stack with
    | v :: rest => if v.isNarrow then some (none, { s with stack := v :: v :: rest }) else none
    | _ => none
  | .swap =>
    match s.stack with
    | w :: v :: rest => if v.isNarrow && w.isNarrow then some (none, { s with stack := v :: w :: rest }) else none
    | _ => none
  | op => (intConst? op).bind fun v => s.push (.int v)

/-- The branch if a test holds. -/
def branch (test : Bool) (target : InsnId) (s : State R W) : Option (Exit R W) :=
  some (if test then some target else none, s)

/-- A test of one int, or of two. -/
def execJump (op : Opcode) (target : InsnId) (s : State R W) : Option (Exit R W) :=
  match op, s.stack with
  | .ifeq, .int v :: rest => branch (v == 0) target { s with stack := rest }
  | .ifne, .int v :: rest => branch (v != 0) target { s with stack := rest }
  | .ifIcmpeq, .int w :: .int v :: rest => branch (v == w) target { s with stack := rest }
  | .ifIcmpne, .int w :: .int v :: rest => branch (v != w) target { s with stack := rest }
  | _, _ => none

/-- A call without a receiver: one of the three things that are done to coordinates. -/
def execStatic (m : Member) (s : State R W) : Option (Exit R W) :=
  match c.catalog.unpackAxis? m with
  | some axis =>
    match s.stack with
    | .packed p :: rest => some (none, { s with stack := .int (p.get axis) :: rest })
    | _ => none
  | none =>
    match c.catalog.offset.filter fun o => o.method = m with
    | some o =>
      match s.stack with
      | .ref r :: .packed p :: rest => some (none, { s with
          stack := .packed (.ofParts fun axis => p.get axis + M.accessor (o.axes.get axis) r) :: rest })
      | _ => none
    | none =>
      match (c.catalog.lookup m).filter Entry.pack, s.stack with
      | some _, .int z :: .int y :: .int x :: rest => some (none, { s with stack := .packed ⟨x, y, z⟩ :: rest })
      | _, _ => none

/-- A call with a receiver: it gives a coordinate, or it is an accessor and gives an int. -/
def execReceiver (m : Member) (s : State R W) : Option (Exit R W) :=
  match s.stack with
  | .ref r :: rest =>
    match (c.catalog.lookup m).bind Entry.axes with
    | some axes =>
      some (none, { s with stack := .packed (.ofParts fun axis => M.accessor (axes.get axis) r) :: rest })
    | none =>
      if m.desc = ("()I" : Text) then some (none, { s with stack := .int (M.accessor m r) :: rest }) else none
  | _ => none

/-- One instruction. There is no result for instructions that the machine does not know, nor for a stack
that does not fit. -/
def exec (x : Insn) (s : State R W) : Option (Exit R W) :=
  match x with
  | .label => some (none, s)
  | .plain op => execPlain M op s
  | .push op v => if op = .bipush ∨ op = .sipush then s.push (.int v) else none
  | .ldc (.int v) => s.push (.int v)
  | .ldc (.long v) =>
    if v = c.catalog.sentinel.packed then s.push (.packed (.ofParts fun _ => c.catalog.sentinel.narrow)) else none
  | .var op slot => execVar c M op slot s
  | .field .getstatic m => s.push (.ref (M.global m))
  | .jump op target => execJump op target s
  | .call op m _ => if op = .invokestatic then execStatic c M m s else
      if op.hasReceiver then execReceiver c M m s else none
  | _ => none

/-- Lines of code are run in order. After a branch to `t`, lines are skipped until the one with the id `t`;
if there is none, running goes on elsewhere. -/
def run : Option InsnId → List (InsnId × Insn) → State R W → Option (Exit R W)
  | goal, [], s => some (goal, s)
  | none, (_, x) :: rest, s => (exec c M x s).bind fun r => run r.1 rest r.2
  | some t, (id, x) :: rest, s =>
    if id = t then (exec c M x s).bind fun r => run r.1 rest r.2 else run (some t) rest s

/-! ## Runs -/

variable {c M}

@[simp] theorem run_nil (goal : Option InsnId) (s : State R W) : run c M goal [] s = some (goal, s) := by
  cases goal <;> rfl

@[simp] theorem run_cons (id : InsnId) (x : Insn) (rest : List (InsnId × Insn)) (s : State R W) :
    run c M none ((id, x) :: rest) s = (exec c M x s).bind fun r => run c M r.1 rest r.2 := rfl

@[simp] theorem run_singleton (id : InsnId) (x : Insn) (s : State R W) :
    run c M none [(id, x)] s = exec c M x s := by
  rw [run_cons]
  cases exec c M x s <;> simp

/-- Once an instruction is carried out, the lines behind it are run. -/
theorem run_cons_of {id : InsnId} {x : Insn} {rest : List (InsnId × Insn)} {s s' : State R W}
    (h : exec c M x s = some (none, s')) : run c M none ((id, x) :: rest) s = run c M none rest s' := by
  rw [run_cons, h, Option.bind_some]

/-- Code behind code is run from where the first part leads to. -/
theorem run_append (goal : Option InsnId) (ls ks : List (InsnId × Insn)) (s : State R W) :
    run c M goal (ls ++ ks) s = (run c M goal ls s).bind fun r => run c M r.1 ks r.2 := by
  induction ls generalizing goal s with
  | nil => simp
  | cons p ls ih =>
    obtain ⟨id, x⟩ := p
    have hexec : ((exec c M x s).bind fun r => run c M r.1 (ls ++ ks) r.2) =
        ((exec c M x s).bind fun r => run c M r.1 ls r.2).bind fun r => run c M r.1 ks r.2 := by
      rw [Option.bind_assoc]
      exact congrArg _ (funext fun r => ih r.1 r.2)
    cases goal with
    | none => simpa using hexec
    | some t =>
      rw [List.cons_append, run, run]
      split
      · exact hexec
      · exact ih (some t) s

/-- A branch leaves code in which its target is not. -/
theorem run_of_forall_ne {t : InsnId} {ls : List (InsnId × Insn)} (h : ∀ p ∈ ls, p.1 ≠ t) (s : State R W) :
    run c M (some t) ls s = some (some t, s) := by
  induction ls with
  | nil => simp
  | cons p ls ih =>
    obtain ⟨id, x⟩ := p
    rw [run, if_neg (h (id, x) (by simp))]
    exact ih fun q hq => h q (by simp [hq])

end Machine

end CoordSplit
