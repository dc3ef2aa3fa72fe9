import CoordSplit.Catalog.Basic
import CoordSplit.Method
import CoordSplit.SlotMap

/-!
# Signatures of transformed methods

A transformed method takes three ints for each packed parameter. Its local variable table names the three
parts of each expanded variable, and its limits are computed anew. If its descriptor is that of the method
it was made from, a suffix tells the two apart; initialisers keep their names.
-/

set_option autoImplicit false

namespace CoordSplit

/-- Why a method has no new signature. -/
inductive SignatureError where
  | descriptor (cause : DescriptorError)
  | notLong (index : Nat) (slot : Int) (t : ValueType)
  | split (cause : MethodType.SplitError)
  | depth (cause : DepthError)

namespace SignatureError

/-- The failure as it is reported. -/
def diagnostic : SignatureError → Diagnostic
  | .descriptor e => .ofMalformed .none ("method descriptor: " ++ e.message)
  | .notLong i slot t => .ofInconsistent .none (Text.concat
      ["parameter ", Text.ofNat i, " in expanded slot ", Text.ofInt slot, " is ", t.desc])
  | .split e => .ofInconsistent .none e.message
  | .depth e => e.diagnostic

end SignatureError

/-- The suffix of the name of a transformed method that keeps its descriptor. -/
def defaultSuffix : Text := "3int"

/-- The end of the name of a part of a variable. -/
def Axis.suffix : Axis → Text
  | .x => "_x"
  | .y => "_y"
  | .z => "_z"

/-- The slot behind those that a variable takes; one whose descriptor cannot be read takes one. -/
def LocalVar.slotEnd (l : LocalVar) : Int :=
  match ValueType.parse l.desc with
  | .ok t => Slot.up l.slot t.size
  | .error _ => Slot.up l.slot 1

/-- The slot behind those that an instruction uses. -/
def Insn.slotEnd? : Insn → Option Int
  | .var op slot =>
    match op.varType? with
    | some t => some (Slot.up slot t.size)
    | none => some (Slot.up slot 1)
  | .iinc slot _ => some (Slot.up slot 1)
  | _ => none

namespace Method

/-- The indices of the expanded parameters, from index `i` and slot `slot` on. -/
def expandedParams (s : SlotMap) : Nat → Int → List ValueType → Except SignatureError (List Int)
  | _, _, [] => .ok []
  | i, slot, t :: rest =>
    if s.isExpanded slot then
      if t = .long then (expandedParams s (i + 1) (slot + t.size) rest).map ((i : Int) :: ·)
      else .error (.notLong i slot t)
    else expandedParams s (i + 1) (slot + t.size) rest

/-- The descriptor of a method with each expanded parameter replaced by three ints. -/
def expandedDesc (m : Method) (s : SlotMap) : Except SignatureError Text :=
  match m.type with
  | .error e => .error (.descriptor e)
  | .ok f => do
    let indices ← expandedParams s 0 (if m.isStatic then 0 else 1) f.params
    match f.split indices with
    | .error e => throw (.split e)
    | .ok g => return g.desc

/-- The slots behind the parameters, behind each variable and behind what each instruction uses. -/
def slotEnds (m : Method) : List Int :=
  let params : List Int := match m.type with
    | .ok f => [Slot.up (if m.isStatic then 0 else 1) f.size]
    | .error _ => []
  params ++ m.locals.map LocalVar.slotEnd ++ m.code.listing.filterMap fun p => p.2.slotEnd?

/-- The number of local slots that the transformed method needs, given that its code, its descriptor and
its local variables have been transformed. -/
def expandedLimit (m : Method) (s : SlotMap) : Int := m.slotEnds.foldl max (s.map m.maxLocals)

end Method

/-- A variable with its slot moved; three ints instead of an expanded one. -/
def LocalVar.expand (s : SlotMap) (l : LocalVar) : List LocalVar :=
  if s.isExpanded l.slot then
    Axis.all.map fun axis =>
      ⟨l.name ++ axis.suffix, ValueType.int.desc, [], Slot.up (s.map l.slot) axis.index, l.start, l.stop⟩
  else [{ l with slot := s.map l.slot }]

/-- A method whose code has been transformed gets its new signature. -/
def Method.withSignature (m : Method) (s : SlotMap) (suffix : Text) : Except SignatureError Method := do
  let desc ← m.expandedDesc s
  let name := if desc = m.desc ∧ !Text.startsWith m.name "<" then m.name ++ suffix else m.name
  let m := { m with name := name, desc := desc, locals := m.locals.flatMap (LocalVar.expand s) }
  let m := { m with maxLocals := m.expandedLimit s }
  match m.stackDepth with
  | .error e => throw (.depth e)
  | .ok n => return { m with maxStack := n }

end CoordSplit
