import CoordSplit.Insn.Basic
import CoordSplit.Fault

/-!
# Instruction lists with stable ids

`Code` is a sequence of instructions in which every instruction has an id that stays valid while
others are inserted and removed, so branch targets, handler ranges and analysis results keep their
meaning across changes. Ids are given out in order and never used again.

The sequence is a doubly linked list over the array of everything ever inserted. `Code.ids` is the
view: the ids from the first instruction on, in order.
-/

set_option autoImplicit false

namespace CoordSplit

/-- An instruction with its neighbours. A removed one has none, but keeps its instruction. -/
structure Node where
  insn : Insn
  prev : InsnId
  next : InsnId
  removed : Bool
  deriving DecidableEq

/-- A sequence of instructions with stable ids. -/
structure Code where
  /-- Every instruction ever inserted, by id. -/
  nodes : Array Node
  first : InsnId
  last : InsnId
  /-- How many instructions are in the sequence, counted along with every change. -/
  live : Nat
  deriving DecidableEq

namespace Code

/-- Why an instruction cannot be removed. -/
inductive RemoveError where
  | dead (id : InsnId)
  | label (id : InsnId)
  deriving DecidableEq

/-- The wording of the cause. -/
def RemoveError.message : RemoveError → Text
  | .dead id => "remove dead instruction " ++ Text.ofInt id
  | .label id => "remove label " ++ Text.ofInt id

/-- The code without instructions. -/
def empty : Code := ⟨#[], .none, .none, 0⟩

/-- The node of an id, if the id was ever given out. -/
def node? (c : Code) : InsnId → Option Node
  | .ofNat k => c.nodes[k]?
  | .negSucc _ => none

/-- The instruction of an id, if the id was ever given out. -/
def get? (c : Code) (id : InsnId) : Option Insn := (c.node? id).map Node.insn

/-- The instruction of an id. -/
def get (c : Code) (id : InsnId) : Except Fault Insn :=
  match c.get? id with
  | some x => .ok x
  | none => .error .index

/-- The id that follows an instruction. -/
def next (c : Code) (id : InsnId) : Except Fault InsnId :=
  match c.node? id with
  | some n => .ok n.next
  | none => .error .index

/-- The id that precedes an instruction. -/
def prev (c : Code) (id : InsnId) : Except Fault InsnId :=
  match c.node? id with
  | some n => .ok n.prev
  | none => .error .index

/-- Whether the id is that of an instruction that was not removed. -/
def isLive (c : Code) (id : InsnId) : Bool :=
  match c.node? id with
  | some n => !n.removed
  | none => false

/-- The number of instructions in the sequence. -/
def size (c : Code) : Nat := c.live

/-- The number of ids ever given out. -/
def capacity (c : Code) : Nat := c.nodes.size

/-- The ids met from `id` on when following `next`, at most `fuel` of them. -/
def walk (c : Code) : Nat → InsnId → List InsnId
  | 0, _ => []
  | fuel + 1, id =>
    match c.node? id with
    | some n => id :: walk c fuel n.next
    | none => []

/-- The ids of the instructions, in order. -/
def ids (c : Code) : List InsnId := c.walk c.nodes.size c.first

/-- The instructions with their ids, in order. -/
def listing (c : Code) : List (InsnId × Insn) :=
  c.ids.filterMap fun id => (c.get? id).map fun x => (id, x)

/-- The position of every id in the sequence, `-1` for ids that are not in it. -/
def index (c : Code) : Array Int :=
  c.ids.zipIdx.foldl (fun a p => a.setIfInBounds p.1.toNat p.2)
    (Array.replicate c.nodes.size (-1))

/-- The code with the node of an id changed. -/
def modify (c : Code) (id : InsnId) (f : Node → Node) : Code :=
  match id with
  | .ofNat k => { c with nodes := c.nodes.modify k f }
  | .negSucc _ => c

/-- The code with another instruction under an id. -/
def set (c : Code) (id : InsnId) (x : Insn) : Except Fault Code :=
  match c.node? id with
  | some _ => .ok (c.modify id fun n => { n with insn := x })
  | none => .error .index

/-- The code with one more id, whose instruction is not in the sequence yet. -/
def alloc (c : Code) (x : Insn) : Code × InsnId :=
  ({ c with nodes := c.nodes.push ⟨x, .none, .none, false⟩, live := c.live + 1 }, c.nodes.size)

/-- The code with `id` between two neighbours; either may be missing, at an end of the sequence. -/
def link (c : Code) (prev id next : InsnId) : Code :=
  let c := c.modify id fun n => { n with prev := prev, next := next }
  let c := if prev = .none then { c with first := id }
    else c.modify prev fun n => { n with next := id }
  if next = .none then { c with last := id }
  else c.modify next fun n => { n with prev := id }

/-- The instructions inserted one after the other behind an id, and their ids. The code is also given
when the id does not exist: the instruction to insert has its id by then. -/
def insertAfter (c : Code) (id : InsnId) : List Insn → Code × Except Fault (List InsnId)
  | [] => (c, .ok [])
  | x :: xs =>
    let (c, fresh) := c.alloc x
    match c.node? id with
    | none => (c, .error .index)
    | some n =>
      let (c, rest) := (c.link id fresh n.next).insertAfter fresh xs
      (c, rest.map (fresh :: ·))

/-- The instruction put at the end, and its id. -/
def append (c : Code) (x : Insn) : Code × Except Fault InsnId :=
  if c.last = .none then
    let (c, fresh) := c.alloc x
    ({ c with first := fresh, last := fresh }, .ok fresh)
  else
    let (c, fresh) := c.insertAfter c.last [x]
    (c, fresh.map fun l => l.headD .none)

/-- The instructions put at the end one after the other, and their ids. -/
def appendAll (c : Code) : List Insn → Code × Except Fault (List InsnId)
  | [] => (c, .ok [])
  | x :: xs =>
    match c.append x with
    | (c, .error f) => (c, .error f)
    | (c, .ok fresh) =>
      let (c, rest) := c.appendAll xs
      (c, rest.map (fresh :: ·))

/-- The code of the given instructions. -/
def ofList (xs : List Insn) : Code := (empty.appendAll xs).1

/-- The instructions linked in between `prev` and `next`, and their ids. -/
def insertBetween (c : Code) (prev next : InsnId) : List Insn → Code × List InsnId
  | [] => (c, [])
  | x :: xs =>
    let (c, fresh) := c.alloc x
    let (c, rest) := (c.link prev fresh next).insertBetween fresh next xs
    (c, fresh :: rest)

/-- The instructions inserted in order before an id, and their ids. `InsnId.none` stands for the end
of the sequence. -/
def insertBefore (c : Code) (id : InsnId) (xs : List Insn) : Code × Except Fault (List InsnId) :=
  if id = .none then
    if c.last = .none then c.appendAll xs else c.insertAfter c.last xs
  else
    match c.node? id with
    | none => (c, .error .index)
    | some n =>
      let (c, fresh) := c.insertBetween n.prev id xs
      (c, .ok fresh)

/-- The code without an instruction. Labels stay, because something may refer to them. -/
def remove (c : Code) (id : InsnId) : Except RemoveError Code :=
  match c.node? id with
  | none => .error (.dead id)
  | some n =>
    if n.removed then .error (.dead id)
    else if n.insn.isLabel then .error (.label id)
    else
      let c := if n.prev = .none then { c with first := n.next }
        else c.modify n.prev fun m => { m with next := n.next }
      let c := if n.next = .none then { c with last := n.prev }
        else c.modify n.next fun m => { m with prev := n.prev }
      let c := c.modify id fun m => { m with prev := .none, next := .none, removed := true }
      .ok { c with live := c.live - 1 }

/-- A copy of the code, with the same ids, in an array of its own. -/
def clone (c : Code) : Code := { c with nodes := #[] ++ c.nodes }

@[simp] theorem clone_eq (c : Code) : c.clone = c := by rw [clone, Array.empty_append]

end Code

end CoordSplit
