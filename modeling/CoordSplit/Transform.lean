import CoordSplit.Conversion
import CoordSplit.Signature

/-!
# Transforming methods and classes

A method is transformed in steps: analysis, expansion set, moving slots, replacing patterns, converting
calls, and the new signature. The method itself is never changed; the result is a second method.

A class is transformed method by method. A method that cannot be transformed is reported and stays as it
is, but a method that cannot be interpreted at all makes the whole class fail.
-/

set_option autoImplicit false

namespace CoordSplit

/-- Why a method is not transformed, by step. -/
inductive TransformError where
  | analysis (cause : FlowError)
  | expansion (cause : ExpansionError)
  | slots (cause : AccessError)
  | pattern (pattern : Pattern) (cause : PatternError)
  | call (cause : ConversionError)
  | leftover (cause : Leftover)
  | signature (cause : SignatureError)
  /-- The class has a method with the new name and descriptor. -/
  | exists (title : Text)

namespace TransformError

/-- The failure as it is reported, without the method. -/
def diagnostic : TransformError → Diagnostic
  | .analysis e => e.diagnostic.within "analyze"
  | .expansion e => e.diagnostic.within "expansion set"
  | .slots e => e.diagnostic.within "remap slots"
  | .pattern p e => (e.diagnostic.within p.name).within "rewrite patterns"
  | .call e => e.diagnostic.within "rewrite calls"
  | .leftover l => l.diagnostic
  | .signature e => e.diagnostic.within "signature"
  | .exists t => .plain (Text.concat ["transformed method ", t, " already exists"])

end TransformError

/-- A failure of one method. -/
structure MethodError where
  title : Text
  /-- The position in the code of the instruction that is to blame, or `-1`. -/
  position : Int
  cause : TransformError

namespace MethodError

/-- The failure as it is reported. -/
def diagnostic (e : MethodError) : Diagnostic :=
  let d := e.cause.diagnostic
  let place : Text := if e.position < 0 then e.title
    else Text.concat [e.title, " at ", Text.ofInt e.position]
  { d.within place with method := some (e.title, e.position) }

/-- The failure of a method: the position is that of the instruction to which the cause points. -/
def ofCause (m : Method) (cause : TransformError) : Except Fault MethodError :=
  let located (id : InsnId) : Except Fault MethodError :=
    match id with
    | .ofNat k => .ok ⟨m.title, (m.code.index[k]?).getD (-1), cause⟩
    | .negSucc 0 => .ok ⟨m.title, -1, cause⟩
    | .negSucc (_ + 1) => .error .index
  match cause.diagnostic.kind with
  | .inconsistent id | .malformed id => located id
  | _ => .ok ⟨m.title, -1, cause⟩

/-- Whether the method cannot be interpreted at all. -/
def isMalformed (e : MethodError) : Bool :=
  match e.cause.diagnostic.kind with
  | .malformed _ => true
  | _ => false

end MethodError

/-- What transforming a method came to. -/
structure Transformed where
  /-- The new method; none if there was nothing to do. -/
  method : Option Method
  expanded : List Nat
  /-- How often each pattern was replaced. -/
  patterns : List (String × Nat)
  /-- How many calls were converted. -/
  calls : Nat
  warnings : List Text

/-- The code of a method after its patterns were replaced, and after its calls were converted as well. -/
structure Rewriting where
  patterns : PatternRun
  calls : CallRun

namespace Method

/-- A copy of the code of an analysed method with its slots moved, its patterns replaced and its calls
converted, if nothing in it still takes a packed coordinate for one value. -/
def rewrite (cat : Catalog) (a : Analysis) (slots : IndexSet) (m : Method) :
    Outcome TransformError Rewriting :=
  let c : ExpansionContext := ⟨cat, .ofSlots slots⟩
  let moved := c.slots.apply m.code.clone
  match moved.refused with
  | some x => Outcome.fail (.slots x)
  | none =>
    let patterns := PatternRun.ofCode c moved.code
    match patterns.failed with
    | some (_, .fault f) => .error (.fault f)
    | some (p, .error x) => Outcome.fail (.pattern p x)
    | none =>
      let calls := CallRun.ofCode c a slots patterns.code
      match calls.failed with
      | some (.fault f) => .error (.fault f)
      | some (.error x) => Outcome.fail (.call x)
      | none =>
        match Leftover.find? c.slots calls.code with
        | some l => Outcome.fail (.leftover l)
        | none => .ok ⟨patterns, calls⟩

/-- The method transformed, with the cause of a failure not yet placed. -/
def transformSteps (cat : Catalog) (owner suffix : Text) (m : Method) :
    Outcome TransformError Transformed := do
  let a ← (Analysis.ofMethod owner m).mapError .analysis
  let e ← (Expansion.solve cat a).mapError .expansion
  let r ← m.rewrite cat a e.slots
  let result : Transformed :=
    ⟨none, e.slots.toList, r.patterns.counts, r.calls.count, e.warnings⟩
  if e.slots.isEmpty ∧ r.patterns.applied.isEmpty ∧ r.calls.count = 0 then return result
  let new ← Outcome.ofExcept .signature ({ m with code := r.calls.code }.withSignature
    (.ofSlots e.slots) (if suffix.isEmpty then defaultSuffix else suffix))
  return { result with method := some new }

/-- The method transformed. An empty suffix stands for the default one. -/
def transform (cat : Catalog) (owner suffix : Text) (m : Method) : Outcome MethodError Transformed :=
  match m.transformSteps cat owner suffix with
  | .ok r => .ok r
  | .error (.fault f) => .error (.fault f)
  | .error (.error cause) =>
    match MethodError.ofCause m cause with
    | .ok e => .fail e
    | .error f => .error (.fault f)

end Method

/-- What became of a method. -/
inductive MethodStatus where
  | unchanged
  /-- The method was transformed; the title is that of the new method. -/
  | transformed (title : Text)
  | failed (cause : MethodError)

/-- The report on a method. -/
structure MethodReport where
  title : Text
  status : MethodStatus
  expanded : List Nat
  patterns : List (String × Nat)
  calls : Nat
  warnings : List Text

/-- The report on a class. -/
structure Report where
  run : Text
  className : Text
  methods : List MethodReport

/-- The number of methods that failed. -/
def Report.failed (r : Report) : Nat :=
  r.methods.countP fun m => match m.status with
    | .failed _ => true
    | _ => false

/-- A malformed method of a class. -/
structure ClassError where
  className : Text
  cause : MethodError

/-- The failure as it is reported. -/
def ClassError.diagnostic (e : ClassError) : Diagnostic :=
  e.cause.diagnostic.within (Text.concat ["class ", e.className])

namespace ClassModel

/-- What became of a method before names were compared; none for a method without code. -/
abbrev Attempt := Option (Except MethodError Transformed)

/-- The methods that have code are transformed one by one. -/
def attempts (cat : Catalog) (owner suffix : Text) : List Method →
    Except Fault (List (Method × Attempt))
  | [] => .ok []
  | m :: rest => do
    let attempt ← if m.code.size = 0 then pure none
      else match m.transform cat owner suffix with
        | .ok r => pure (some (.ok r))
        | .error (.error e) => pure (some (.error e))
        | .error (.fault f) => throw f
    let tail ← attempts cat owner suffix rest
    return (m, attempt) :: tail

/-- The malformed method that makes a class fail: the first one. -/
def malformed? (as : List (Method × Attempt)) : Option MethodError :=
  as.findSome? fun p => match p.2 with
    | some (.error e) => if e.isMalformed then some e else none
    | _ => none

/-- The reports on the methods and the new methods, where `seen` holds the titles that are taken. -/
def collect : List Text → List (Method × Attempt) → List MethodReport × List Method
  | _, [] => ([], [])
  | seen, (m, none) :: rest =>
    let (rs, ms) := collect seen rest
    (⟨m.title, .unchanged, [], [], 0, []⟩ :: rs, ms)
  | seen, (m, some (.error e)) :: rest =>
    let (rs, ms) := collect seen rest
    (⟨m.title, .failed e, [], [], 0, []⟩ :: rs, ms)
  | seen, (m, some (.ok t)) :: rest =>
    let report (s : MethodStatus) : MethodReport :=
      ⟨m.title, s, t.expanded, t.patterns, t.calls, t.warnings⟩
    match t.method with
    | none =>
      let (rs, ms) := collect seen rest
      (report .unchanged :: rs, ms)
    | some new =>
      if seen.contains new.title then
        let (rs, ms) := collect seen rest
        (report (.failed ⟨m.title, -1, .exists new.title⟩) :: rs, ms)
      else
        let (rs, ms) := collect (new.title :: seen) rest
        (report (.transformed new.title) :: rs, new :: ms)

/-- The class with a transformed copy appended for every method that needs one, and the report. -/
def transform (cat : Catalog) (suffix run : Text) (c : ClassModel) :
    Outcome ClassError (ClassModel × Report) := do
  let as ← Outcome.ofFault (attempts cat c.name suffix c.methods)
  if let some e := malformed? as then Outcome.fail ⟨c.name, e⟩
  let (reports, new) := collect (c.methods.map Method.title) as
  return ({ c with methods := c.methods ++ new }, ⟨run, c.name, reports⟩)

end ClassModel

end CoordSplit
