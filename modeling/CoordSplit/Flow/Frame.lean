import CoordSplit.Flow.Value

/-!
# Frames

The abstract state of a method before an instruction: the operand stack, one entry per value, and the
local slots. A wide local takes two slots, of which the second is unset.

`Frame.merge` joins the states of two paths that meet. Both must have stacks of the same height whose
values have the same widths; what is known about slots that only one path has set is kept.
-/

set_option autoImplicit false

namespace CoordSplit

-- Sums start from the built-in zero, whatever else is in scope.
attribute [local instance (2000)] Zero.ofOfNat0

/-- The abstract state before an instruction. -/
structure Frame where
  /-- The operand stack, top first. -/
  stack : List Value
  /-- The local slots, `none` where unset. -/
  locals : List (Option Value)

namespace Frame

/-- The stack depth in slot words. -/
def words (f : Frame) : Nat := (f.stack.map Value.size).sum

/-- The value at a depth below the top of the stack, if the stack is that deep. -/
def top? (f : Frame) (depth : Nat) : Option Value := f.stack[depth]?

/-- The value at a depth given as an integer; a negative depth is a fault. -/
def top (f : Frame) : Int → Except Fault (Option Value)
  | .ofNat k => .ok (f.top? k)
  | .negSucc _ => .error .index

/-- The value of a local slot, if it is set. -/
def localAt (f : Frame) : Int → Option Value
  | .ofNat k => (f.locals[k]?).join
  | .negSucc _ => none

/-- Why two frames cannot meet. -/
inductive MergeError where
  | height (left right : Nat)
  /-- Values of different width at a position counted from the bottom of the stack. -/
  | width (position : Nat)
  deriving DecidableEq

/-- The wording of the cause. -/
def MergeError.message : MergeError → Text
  | .height a b => Text.concat ["stack height mismatch: ", Text.ofNat a, " vs ", Text.ofNat b]
  | .width i => "stack value width mismatch at " ++ Text.ofNat i

/-- The entries of two stacks merged from the bottom up, with whether one grew or the position of the
first two that have different widths. The entries below that position are merged already. -/
def mergeStacks : List Value → List Value → List Value × Except Nat Bool
  | v :: vs, w :: ws =>
    match mergeStacks vs ws with
    | (merged, .error i) => (v :: merged, .error i)
    | (merged, .ok grew) =>
      if w.size ≠ v.size then (v :: merged, .error vs.length)
      else
        let m := v.merge w
        (m :: merged, .ok (grew || !m.equal v))
  | vs, _ => (vs, .ok false)

/-- The local slots of two frames merged, and whether more is known about one of them. -/
def mergeLocals : List (Option Value) → List (Option Value) → List (Option Value) × Bool
  | xs, [] => (xs, false)
  | [], y :: ys =>
    let (rest, grew) := mergeLocals [] ys
    (y :: rest, y.isSome || grew)
  | x :: xs, y :: ys =>
    let (m, here) := mergeUnset x y
    let (rest, grew) := mergeLocals xs ys
    (m :: rest, here || grew)

/-- The first frame joined with the second, and whether it changed. After an error the frame holds
what was merged before it. -/
def merge (f g : Frame) : Frame × Except MergeError Bool :=
  if f.stack.length ≠ g.stack.length then (f, .error (.height f.stack.length g.stack.length))
  else match mergeStacks f.stack g.stack with
    | (stack, .error i) => ({ f with stack }, .error (.width i))
    | (stack, .ok grewStack) =>
      let (locals, grewLocals) := mergeLocals f.locals g.locals
      (⟨stack, locals⟩, .ok (grewStack || grewLocals))

end Frame

end CoordSplit
