import CoordSplit.Flow.Step
import CoordSplit.StackDepth

/-!
# Flow analysis

A method is interpreted abstractly until the frames before its instructions reach a fixed point. The
worklist holds the positions whose frame has changed, and the least one is taken next. From a position
the frame after its instruction flows to the branch targets and to the next position, and the locals
before and after it flow into the handlers that cover it.

The result holds the frames before and after every reachable instruction, and which instruction uses
which values there. The users of a value are found under its key, and those of whatever an instruction may
have produced under that instruction (`Analysis.consumers`, `Analysis.consumersOf`).
-/

set_option autoImplicit false

namespace CoordSplit

/-- Why a method cannot be analysed. -/
inductive FlowError where
  | descriptor (cause : Method.ParamsError)
  | step (id : InsnId) (cause : StepError)
  | fallsOff (id : InsnId)
  | removedTarget (id : InsnId)
  /-- The frames that meet before `id` do not fit; the second comes from `source`. -/
  | merge (id source : InsnId) (cause : Frame.MergeError)

namespace FlowError

/-- The instruction that the error points at. -/
def place : FlowError → InsnId
  | .descriptor _ => .none
  | .step id _ | .fallsOff id | .removedTarget id | .merge id _ _ => id

/-- The wording of the cause. -/
def reason : FlowError → Text
  | .descriptor e => "method descriptor: " ++ e.message
  | .step _ e => e.message
  | .fallsOff _ => "falls off the end of code"
  | .removedTarget _ => "reference to a removed instruction"
  | .merge _ source e => Text.concat ["merge from ", Text.ofInt source, ": ", e.message]

/-- The failure as it is reported: the method is malformed. -/
def diagnostic (e : FlowError) : Diagnostic := .ofMalformed e.place e.reason

end FlowError

/-- A method laid out for analysis: its instructions by position, and the position of every id. -/
structure Layout where
  method : Method
  lines : Array (InsnId × Insn)
  index : Array Int

namespace Layout

/-- The layout of a method. -/
def ofMethod (m : Method) : Layout := ⟨m, m.code.listing.toArray, m.code.index⟩

/-- The position of an id that is in the code. -/
def position? (l : Layout) : InsnId → Option Nat
  | .ofNat k =>
    match l.index[k]? with
    | some (.ofNat p) => some p
    | _ => none
  | .negSucc _ => none

end Layout

/-- The frames found so far by position, and the positions to be looked at again, least first. -/
structure FlowState where
  frames : Array (Option Frame)
  queue : List Nat

namespace FlowState

/-- The position is to be looked at again. -/
def enqueue (s : FlowState) (p : Nat) : FlowState :=
  if s.queue.contains p then s
  else { s with queue := insertSorted (· ≤ ·) p s.queue }

/-- A frame flows from the instruction `source` to a position. -/
def flow (l : Layout) (source : InsnId) (target : Option Nat) (f : Frame) (s : FlowState) :
    Outcome FlowError FlowState :=
  match target with
  | none => Outcome.fail (.removedTarget source)
  | some p =>
    match s.frames[p]? with
    | none => .error (.fault .index)
    | some none => .ok ({ s with frames := s.frames.setIfInBounds p (some f) }.enqueue p)
    | some (some known) =>
      match known.merge f with
      | (_, .error e) => Outcome.fail (.merge ((l.lines[p]?.map Prod.fst).getD .none) source e)
      | (merged, .ok changed) =>
        let s := { s with frames := s.frames.setIfInBounds p (some merged) }
        .ok (if changed then s.enqueue p else s)

/-- The locals of a frame flow into a handler, with just the exception on the stack. -/
def flowHandler (l : Layout) (source : InsnId) (h : Handler) (locals : List (Option Value))
    (s : FlowState) : Outcome FlowError FlowState :=
  match h.handler with
  | .negSucc _ => .error (.fault .key)
  | .ofNat k =>
    let t := if h.type.isEmpty then .throwable else .object h.type
    s.flow l source (l.position? h.handler) ⟨[.produced t k], locals⟩

/-- Whether a position lies in the range of a handler. -/
def covers (l : Layout) (h : Handler) (p : Nat) : Bool :=
  match l.position? h.start, l.position? h.stop with
  | some first, some stop => first ≤ p && p < stop
  | none, some stop => p < stop
  | _, none => false

/-- The frames flow from a position to the handlers that cover it: first the locals before the
instruction, as they are known by then, and then those after it. -/
def flowHandlers (l : Layout) (p : Nat) (source : InsnId) (after : Frame) :
    List Handler → FlowState → Outcome FlowError FlowState
  | [], s => .ok s
  | h :: rest, s => do
    if covers l h p then
      let before := (s.frames[p]?.join.map Frame.locals).getD []
      let s ← s.flowHandler l source h before
      let s ← s.flowHandler l source h after.locals
      flowHandlers l p source after rest s
    else flowHandlers l p source after rest s

/-- The frame before a position flows through its instruction to everything that can follow it. -/
def visit (l : Layout) (p : Nat) (s : FlowState) : Outcome FlowError FlowState :=
  match l.lines[p]?, s.frames[p]? with
  | some (id, x), some (some f) => do
    let r ← (step id.toNat x f).mapError (.step id)
    let s ← x.targets.foldlM (fun s t => s.flow l id (l.position? t) r.frame) s
    let s ← if x.opcode.falls then
        if p + 1 = l.lines.size then Outcome.fail (.fallsOff id)
        else s.flow l id (some (p + 1)) r.frame
      else pure s
    flowHandlers l p id r.frame l.method.handlers s
  | _, _ => .error (.fault .index)

/-- Visits queued positions, least first, until none is left; the first argument bounds the number of
visits. -/
def run (l : Layout) : Nat → FlowState → Outcome FlowError FlowState
  | 0, s => .ok s
  | fuel + 1, s =>
    match s.queue with
    | [] => .ok s
    | p :: rest =>
      match visit l p { s with queue := rest } with
      | .error e => .error e
      | .ok s => run l fuel s

end FlowState

namespace Layout

/-- One more than the greatest local slot that an instruction can touch. -/
def slotBound (l : Layout) : Nat :=
  l.lines.foldl (fun n line => match line.2 with
    | .var _ slot | .iinc slot _ => max n (slot.toNat + 2)
    | _ => n) 0

/-- A bound on the number of visits that the analysis needs. Every visit follows a frame being set or
an entry of it growing; a frame has at most two stack entries per instruction and `locals` local
slots, and an entry can grow in its type, in its producers and in its slots. -/
def visitBound (l : Layout) (locals : Nat) : Nat :=
  let n := l.lines.size
  let slots := max locals l.slotBound + 1
  n * (1 + (2 * n + slots + 2) * (l.index.size + slots + n + 8)) + 1

end Layout

/-- Who uses what: users by the key of the value that they use, and by each instruction that may have
produced it. -/
structure ConsumerIndex where
  byValue : List (Text × IndexSet)
  byProducer : List (Nat × IndexSet)

namespace ConsumerIndex

variable {κ : Type} [DecidableEq κ]

/-- The users that are entered under a key. -/
def find (key : κ) : List (κ × IndexSet) → IndexSet
  | [] => .empty
  | (k, users) :: rest => if k = key then users else find key rest

/-- One more user is entered under a key. -/
def enter (user : Nat) (key : κ) : List (κ × IndexSet) → List (κ × IndexSet)
  | [] => [(key, .singleton user)]
  | (k, users) :: rest =>
    if k = key then (k, users.insert user) :: rest else (k, users) :: enter user key rest

/-- The index with one more use of a value. -/
def use (user : Nat) (ix : ConsumerIndex) (v : Value) : ConsumerIndex :=
  ⟨enter user v.key ix.byValue, v.prod.toList.foldl (fun table p => enter user p table) ix.byProducer⟩

/-- The index of instructions with the values that each of them uses. -/
def ofUses (uses : List (InsnId × List Value)) : ConsumerIndex :=
  uses.foldl (fun ix u => u.2.foldl (use u.1.toNat) ix) ⟨[], []⟩

end ConsumerIndex

/-- The frames of a method at the fixed point, and the values that its instructions use. -/
structure Analysis where
  layout : Layout
  /-- The frame before each position, `none` if it is not reachable. -/
  before : Array (Option Frame)
  /-- The frame after each position, `none` if it is not reachable. -/
  after : Array (Option Frame)
  /-- The reachable instructions in code order, each with the values that it uses. -/
  uses : List (InsnId × List Value)
  index : ConsumerIndex
  /-- The index is that of the uses. -/
  indexed : index = .ofUses uses

namespace Analysis

/-- The frame at the start of a method. -/
def entry (params : List ValueType) : Frame :=
  ⟨[], params.zipIdx.map fun p =>
    if p.1 = .top then none else some ⟨p.1, .empty, .singleton p.2⟩⟩

/-- The effect of every reachable instruction on its frame, in code order. -/
def results : List ((InsnId × Insn) × Option Frame) →
    Outcome FlowError (List (InsnId × Option StepResult))
  | [] => .ok []
  | ((id, _), none) :: rest => do
    let tail ← results rest
    return (id, none) :: tail
  | ((id, x), some f) :: rest => do
    let r ← (step id.toNat x f).mapError (.step id)
    let tail ← results rest
    return (id, some r) :: tail

/-- The analysis of a method declared by the class `owner`. -/
def ofMethod (owner : Text) (m : Method) : Outcome FlowError Analysis := do
  let l := Layout.ofMethod m
  if l.lines.isEmpty then return ⟨l, #[], #[], [], .ofUses [], rfl⟩
  let params ← Outcome.ofExcept .descriptor (m.params owner)
  let start : FlowState := ⟨Array.replicate l.lines.size none, []⟩
  let s ← start.flow l .none (some 0) (entry params)
  let s ← s.run l (l.visitBound params.length)
  let rs ← results (l.lines.toList.zip s.frames.toList)
  let uses := rs.filterMap fun r => r.2.map fun s => (r.1, s.used)
  return ⟨l, s.frames, (rs.map fun r => r.2.map StepResult.frame).toArray, uses, .ofUses uses, rfl⟩

/-- The instructions with their positions' frames, in code order. -/
def framed (a : Analysis) : List ((InsnId × Insn) × Option Frame) :=
  a.layout.lines.toList.zip a.before.toList

/-- The frame before an instruction, if it is reachable. -/
def frame? (a : Analysis) (id : InsnId) : Option Frame := do
  let p ← a.layout.position? id
  (a.before[p]?).join

/-- The frame after an instruction, if it is reachable. -/
def after? (a : Analysis) (id : InsnId) : Option Frame := do
  let p ← a.layout.position? id
  (a.after[p]?).join

/-- The value that an instruction pushed, if it alone produced the value on top of the stack after
it. -/
def value? (a : Analysis) (id : InsnId) : Option Value := do
  let f ← a.after? id
  let v ← f.top? 0
  if v.prod.contains id && v.prod.size = 1 then some v else none

/-- The instructions that use a value equal to `v`: those found under its key. -/
def consumers (a : Analysis) (v : Value) : IndexSet := ConsumerIndex.find v.key a.index.byValue

/-- The instructions that use a value which the instruction `id` may have produced. -/
def consumersOf (a : Analysis) : InsnId → IndexSet
  | .ofNat k => ConsumerIndex.find k a.index.byProducer
  | .negSucc _ => .empty

end Analysis

/-- Why the arguments of a call are not on the stack. -/
inductive CallError where
  | descriptor (member : Member) (cause : DescriptorError)
  | underflow (member : Member)

namespace CallError

/-- The wording of the cause. -/
def message : CallError → Text
  | .descriptor m e => Text.concat ["call ", m.key, ": ", e.message]
  | .underflow m => Text.concat ["call ", m.key, ": stack underflow"]

end CallError

/-- The stack values that a call takes, receiver first. -/
def Frame.callArgs (f : Frame) (op : Opcode) (m : Member) : Except CallError (List Value) :=
  match MethodType.parse m.desc with
  | .error e => .error (.descriptor m e)
  | .ok t =>
    let n := t.params.length + (if op.hasReceiver then 1 else 0)
    if f.stack.length < n then .error (.underflow m) else .ok (f.stack.take n).reverse

end CoordSplit
