import CoordSplit.Insn.Effect
import CoordSplit.Method
import CoordSplit.Sorted

/-!
# Stack depth

The greatest depth of the operand stack in slot words, found by following the stack effects through
all branches. Handlers start with one word, the exception. The depths met at one instruction must
agree.
-/

set_option autoImplicit false

namespace CoordSplit

namespace Diagnostic

/-- An instruction that cannot be interpreted. -/
def ofMalformed (id : InsnId) (reason : Text) : Diagnostic :=
  ⟨Text.concat ["malformed: insn ", Text.ofInt id, ": ", reason], .malformed id, none⟩

/-- An instruction that cannot be transformed safely. -/
def ofInconsistent (id : InsnId) (reason : Text) : Diagnostic :=
  ⟨Text.concat ["insn ", Text.ofInt id, ": ", reason], .inconsistent id, none⟩

end Diagnostic

/-- Why no stack depth can be computed. -/
inductive DepthError where
  | outOfCode (id : InsnId)
  | mismatch (id : InsnId) (known found : Int)
  | underflow (id : InsnId) (need held : Int)
  | fallsOff (id : InsnId)
  | effect (id : InsnId) (cause : EffectError)

namespace DepthError

/-- The failure as it is reported. -/
def diagnostic : DepthError → Diagnostic
  | .outOfCode id => .ofMalformed id "branch target out of code"
  | .mismatch id a b =>
    .ofMalformed id (Text.concat ["stack depth mismatch: ", Text.ofInt a, " vs ", Text.ofInt b])
  | .underflow id a b =>
    .ofMalformed id (Text.concat ["stack underflow: need ", Text.ofInt a, ", have ", Text.ofInt b])
  | .fallsOff id => .ofMalformed id "falls off the end of code"
  | .effect id e => .plain (Text.concat ["insn ", Text.ofInt id, ": ", e.message])

end DepthError

namespace StackDepth

/-- The depths known so far by position, and the positions still to follow, least first. -/
structure State where
  depths : Array (Option Int)
  jobs : List (Nat × Int)

/-- A position is reached with a depth. The instruction `id` that leads there is blamed if there is
no such position; `ids` gives the instructions by position. -/
def reach (ids : Array InsnId) (id : InsnId) (pos : Option Nat) (depth : Int) (s : State) :
    Except DepthError State :=
  match pos with
  | none => .error (.outOfCode id)
  | some p =>
    match s.depths[p]?, ids[p]? with
    | some none, _ =>
      .ok ⟨s.depths.setIfInBounds p (some depth),
        insertSorted (fun a b => a.1 ≤ b.1) (p, depth) s.jobs⟩
    | some (some known), some here =>
      if known = depth then .ok s else .error (.mismatch here known depth)
    | _, _ => .error (.outOfCode id)

/-- The position of a live instruction. -/
def position? (code : Code) (index : Array Int) (id : InsnId) : Option Nat :=
  if code.isLive id then
    match index[id.toNat]? with
    | some (.ofNat p) => some p
    | _ => none
  else none

-- Powers are the built-in ones, whatever else is in scope.
attribute [local instance (2000)] instPowNat

/-- The depth after an instruction. Depths are signed integers of 64 bits. Only a negative number of
dimensions can take one out of their range, and then it comes round. -/
def after (e : StackEffect) (depth : Int) : Int :=
  if e.pop < 0 then (depth - e.pop + e.push).bmod (2 ^ (64 : Nat)) else depth - e.pop + e.push

/-- Follows one position after the other until none is left; `best` is the greatest depth so far. The
first argument bounds the number of positions, each of which is followed once. -/
def follow (code : Code) (index : Array Int) (lines : Array (InsnId × Insn)) :
    Nat → State → Int → Except DepthError Int
  | 0, _, best => .ok best
  | fuel + 1, s, best =>
    match s.jobs with
    | [] => .ok best
    | (p, depth) :: jobs =>
      match lines[p]? with
      | none => .ok best
      | some (id, x) => do
        let e ← match x.effect with
          | .ok e => pure e
          | .error cause => throw (.effect id cause)
        if depth < e.pop then throw (.underflow id e.pop depth)
        let ids := lines.map Prod.fst
        let d := after e depth
        let s ← x.targets.foldlM (fun s t => reach ids id (position? code index t) d s)
          ⟨s.depths, jobs⟩
        if x.opcode.falls then
          if p + 1 = lines.size then throw (.fallsOff id)
          let s ← reach ids id (some (p + 1)) d s
          follow code index lines fuel s (max best d)
        else follow code index lines fuel s (max best d)

end StackDepth

/-- The greatest stack depth of a method, in slot words. -/
def Method.stackDepth (m : Method) : Except DepthError Int := do
  let lines := m.code.listing.toArray
  let ids := lines.map Prod.fst
  let index := m.code.index
  let start : StackDepth.State := ⟨Array.replicate lines.size none, []⟩
  let entered ← if lines.isEmpty then pure start else StackDepth.reach ids .none (some 0) 0 start
  let s ← m.handlers.foldlM (fun s h =>
    StackDepth.reach ids h.handler (StackDepth.position? m.code index h.handler) 1 s) entered
  StackDepth.follow m.code index lines lines.size s (if m.handlers.isEmpty then 0 else 1)

end CoordSplit
