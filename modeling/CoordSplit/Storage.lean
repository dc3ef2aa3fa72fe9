import CoordSplit.Code
import CoordSplit.IndexSet

/-!
# Storage

A set does not hold its words, and a code does not hold its nodes: they lie in a slice of storage, and the
set or the code knows the address. Changing one changes its slice, and with it everything else that knows the
same address. Copying takes a slice of its own, and so does everything that is made anew.

`SetTable` and `CodeTable` keep several sets and several codes in one storage and work on them by actions.
-/

set_option autoImplicit false

namespace CoordSplit

/-- Slices of storage by address. -/
structure Storage (β : Type) where
  slices : List β

namespace Storage

variable {β : Type}

/-- Storage of which nothing is taken. -/
def empty : Storage β := ⟨[]⟩

/-- What lies at an address. -/
def read? (st : Storage β) (a : Nat) : Option β := st.slices[a]?

/-- The slice at an address is changed. -/
def write (st : Storage β) (a : Nat) (x : β) : Storage β := ⟨st.slices.set a x⟩

/-- One more slice is taken; its address is the next one. -/
def alloc (st : Storage β) (x : β) : Storage β × Nat := (⟨st.slices ++ [x]⟩, st.slices.length)

end Storage

/-! ## Sets -/

/-- Several sets, each with a number, whose words lie in one storage. -/
structure SetTable where
  store : Storage (List UInt64)
  /-- Where the words of a set lie. A set that has never had a word has no address. -/
  address? : Nat → Option Nat

namespace SetTable

/-- What is done with the sets. The first number is that of the set that is written. -/
inductive Action where
  | of (r : Nat) (keys : List Int)
  | insert (r : Nat) (k : Int)
  | erase (r : Nat) (k : Int)
  | union (r a b : Nat)
  | copy (r a : Nat)
  | merge (r a : Nat)

/-- Every set is empty. -/
def empty : SetTable := ⟨.empty, fun _ => none⟩

/-- The set with a number, as its words are now. -/
def get (t : SetTable) (r : Nat) : IndexSet := ⟨((t.address? r).bind t.store.read?).getD []⟩

/-- The set gets an address. -/
def assign (t : SetTable) (r a : Nat) : SetTable :=
  { t with address? := fun q => if q = r then some a else t.address? q }

/-- The set gets a slice of its own with the given words. -/
def renew (t : SetTable) (r : Nat) (s : IndexSet) : SetTable :=
  let (st, a) := t.store.alloc s.words
  { t with store := st }.assign r a

/-- The words of a set are changed where they lie. -/
def update (t : SetTable) (r : Nat) (s : IndexSet) : SetTable :=
  match t.address? r with
  | some a => { t with store := t.store.write a s.words }
  | none => t.renew r s

/-- The words of the longer of two sets are copied, the words of the other one are put into the copy, and the
copy becomes the set `r`. -/
def unite (t : SetTable) (r a b : Nat) : SetTable :=
  let (long, short) := if (t.get a).words.length < (t.get b).words.length then (b, a) else (a, b)
  let (st, copy) := t.store.alloc (t.get long).words
  let t := { t with store := st }
  let joined := IndexSet.uniteWords 0 (t.get short).words ((t.store.read? copy).getD [])
  { t with store := t.store.write copy joined }.assign r copy

/-- The sets after an action. -/
def run (t : SetTable) : Action → Except Fault SetTable
  | .of r keys => (IndexSet.ofList? keys).map (t.renew r)
  | .insert r k => ((t.get r).insert? k).map (t.update r)
  | .erase r k => ((t.get r).erase? k).map (t.update r)
  | .union r a b => .ok (t.unite r a b)
  | .copy r a => .ok (t.renew r (t.get a))
  | .merge r a => .ok (t.update r ((t.get r).merge (t.get a)).1)

end SetTable

/-! ## Codes -/

namespace Code

/-- A change of a code. -/
inductive Edit where
  | append (x : Insn)
  /-- `InsnId.none` stands for the end. -/
  | insertBefore (id : InsnId) (xs : List Insn)
  | insertAfter (id : InsnId) (xs : List Insn)
  | remove (id : InsnId)
  | set (id : InsnId) (x : Insn)

/-- What is answered to an edit. -/
inductive Reply where
  /-- The ids of the instructions that were put in. -/
  | ids (fresh : List InsnId)
  | done
  | refused (e : RemoveError)
  | fault (f : Fault)

/-- The answer to an insertion. -/
def Reply.ofIds : Except Fault (List InsnId) → Reply
  | .ok fresh => .ids fresh
  | .error f => .fault f

/-- The code after an edit, and the answer. -/
def edit (c : Code) : Edit → Code × Reply
  | .append x => ((c.append x).1, .ofIds ((c.append x).2.map fun id => [id]))
  | .insertBefore id xs => ((c.insertBefore id xs).1, .ofIds (c.insertBefore id xs).2)
  | .insertAfter id xs => ((c.insertAfter id xs).1, .ofIds (c.insertAfter id xs).2)
  | .remove id =>
    match c.remove id with
    | .ok d => (d, .done)
    | .error e => (c, .refused e)
  | .set id x =>
    match c.set id x with
    | .ok d => (d, .done)
    | .error f => (c, .fault f)

end Code

/-- A code whose nodes lie in storage. -/
structure CodeHandle where
  /-- Where the nodes lie. -/
  address : Nat
  first : InsnId
  last : InsnId
  live : Nat

/-- Several codes, numbered from zero, whose nodes lie in one storage. -/
structure CodeTable where
  store : Storage (Array Node)
  handles : List CodeHandle

namespace CodeTable

/-- What is done with the codes. -/
inductive Action where
  /-- One more code is made of instructions. -/
  | make (xs : List Insn)
  | edit (k : Nat) (e : Code.Edit)
  /-- A copy of a code becomes one more code. -/
  | clone (k : Nat)

/-- No code. -/
def empty : CodeTable := ⟨.empty, []⟩

/-- The code of a handle, as its nodes are now. -/
def load (t : CodeTable) (h : CodeHandle) : Code :=
  ⟨(t.store.read? h.address).getD #[], h.first, h.last, h.live⟩

/-- The codes, as their nodes are now. -/
def codes (t : CodeTable) : List Code := t.handles.map t.load

/-- One more code, with its nodes in a slice of their own. -/
def add (t : CodeTable) (c : Code) : CodeTable :=
  let (st, a) := t.store.alloc c.nodes
  ⟨st, t.handles ++ [⟨a, c.first, c.last, c.live⟩]⟩

/-- The nodes of a code are changed where they lie. -/
def update (t : CodeTable) (k : Nat) (h : CodeHandle) (c : Code) : CodeTable :=
  ⟨t.store.write h.address c.nodes, t.handles.set k ⟨h.address, c.first, c.last, c.live⟩⟩

/-- The codes after an action, and the answer; a number that no code has is a fault. -/
def run (t : CodeTable) : Action → CodeTable × Code.Reply
  | .make xs => (t.add (.ofList xs), .done)
  | .edit k e =>
    match t.handles[k]? with
    | none => (t, .fault .index)
    | some h =>
      let (c, r) := (t.load h).edit e
      (t.update k h c, r)
  | .clone k =>
    match t.handles[k]? with
    | none => (t, .fault .index)
    | some h => (t.add (t.load h).clone, .done)

end CodeTable

end CoordSplit
