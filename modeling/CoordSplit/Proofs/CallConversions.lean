import CoordSplit.Proofs.TransformStages

/-!
# Converting calls

How converting a call can fail. A fault, or a call whose arguments are not in its frame, breaks the run;
every other failure is one that stays with the method (`ExpansionContext.convertCall_error`).
-/

set_option autoImplicit false

namespace CoordSplit

open Outcome

namespace ExpansionContext

variable {c : ExpansionContext} {a : Analysis} {expanded : IndexSet}

variable {code : Code} {id : InsnId} {m : Member} {x : Failure ConversionError} {f : Frame} {op : Opcode}

/-- A call that is neither an axis call nor gives a packed coordinate is converted. -/
def convertArgs (c : ExpansionContext) (a : Analysis) (expanded : IndexSet) (code : Code) (id : InsnId)
    (op : Opcode) (m : Member) (itf : Bool) (f : Frame) : Outcome ConversionError (Option Code) := do
  let args ← ofExcept (.args id) (f.callArgs op m)
  let packed ← lift (c.packedArgs a expanded code id m (if op.hasReceiver then 1 else 0)
    (((c.catalog.lookup m).map Entry.positions).getD []) 0 args)
  if packed.isEmpty then return none
  let target ← lift (replacementOf id m (c.catalog.lookup m) (packed.map Prod.fst))
  let code ← packed.foldlM (fun code p => c.convertValue none code p.2) code
  let code ← ofFault (code.set id (.call op target itf))
  return some code

/-- The ways to convert a call. -/
theorem convertCall_eq (code : Code) (id : InsnId) (op : Opcode) (m : Member) (itf : Bool) (f : Frame) :
    c.convertCall a expanded code id op m itf f =
      match c.catalog.unpackAxis? m with
      | some axis => c.convertUnpack a expanded code id f axis
      | none =>
        match c.catalog.lookup m with
        | none => c.convertArgs a expanded code id op m itf f
        | some e =>
          if e.returnsPacked then .ok none
          else if e.isStatic == op.hasReceiver then .fail (.staticMismatch id e.isStatic op)
          else c.convertArgs a expanded code id op m itf f := by
  rw [convertCall, convertArgs]
  cases c.catalog.unpackAxis? m with
  | some axis => rfl
  | none =>
    cases c.catalog.lookup m with
    | none => rfl
    | some e =>
      simp only [Option.map_some, Option.getD_some]
      split
      · rfl
      · split <;> rfl

end ExpansionContext

namespace CallRun

variable {c : ExpansionContext} {a : Analysis} {expanded : IndexSet} {r : CallRun}

/-- A run goes on by one line: if there is a call, it is converted. -/
def convertLine (c : ExpansionContext) (a : Analysis) (expanded : IndexSet) (r : CallRun)
    (line : (InsnId × Insn) × Frame) : Outcome ConversionError CallRun :=
  match if r.code.isLive line.1.1 then r.code.get? line.1.1 else none with
  | some (.call op m itf) =>
    match c.convertCall a expanded r.code line.1.1 op m itf line.2 with
    | .error e => .error e
    | .ok none => .ok r
    | .ok (some code) => .ok { r with code := code, count := r.count + 1 }
  | _ => .ok r

/-- A run converts one line after the other. -/
theorem convertAll_cons (line : (InsnId × Insn) × Frame) (ls : List ((InsnId × Insn) × Frame)) :
    convertAll c a expanded (line :: ls) r =
      match r.convertLine c a expanded line with
      | .error e => { r with failed := some e }
      | .ok r' => convertAll c a expanded ls r' := by
  obtain ⟨⟨id, x⟩, f⟩ := line
  rw [convertAll]
  split
  · next op m itf hinsn =>
    simp only [convertLine, hinsn]
    cases c.convertCall a expanded r.code id op m itf f with
    | error e => rfl
    | ok code => cases code <;> rfl
  · next hinsn =>
    have hline : r.convertLine c a expanded ((id, x), f) = .ok r := by
      rw [convertLine]
      split
      · next op m itf hcall => exact absurd hcall (hinsn op m itf)
      · rfl
    rw [hline]

/-- A line fails iff it is a call that cannot be converted. -/
theorem convertLine_error_iff {line : (InsnId × Insn) × Frame} {x : Failure ConversionError} :
    r.convertLine c a expanded line = .error x ↔ ∃ op m itf, r.code.isLive line.1.1 = true ∧
      r.code.get? line.1.1 = some (.call op m itf) ∧
      c.convertCall a expanded r.code line.1.1 op m itf line.2 = .error x := by
  constructor
  · intro h
    rw [convertLine] at h
    split at h
    · next op m itf hinsn =>
      split at hinsn
      · next hlive =>
        refine ⟨op, m, itf, hlive, hinsn, ?_⟩
        split at h
        · next e he => rw [he, Except.error.inj h]
        · cases h
        · cases h
      · cases hinsn
    · cases h
  · rintro ⟨op, m, itf, hlive, hget, hcall⟩
    simp only [convertLine, hlive, hget, hcall, if_true]

theorem failed_of_convertLine {line : (InsnId × Insn) × Frame} {r' : CallRun}
    (h : r.convertLine c a expanded line = .ok r') : r'.failed = r.failed := by
  rw [convertLine] at h
  split at h
  · split at h
    · cases h
    · rw [← Except.ok.inj h]
    · rw [← Except.ok.inj h]
  · rw [← Except.ok.inj h]

/-- A run fails iff it comes to a line at which it cannot go on. -/
theorem convertAll_failed_iff {ls : List ((InsnId × Insn) × Frame)} (hr : r.failed = none)
    {x : Failure ConversionError} :
    (convertAll c a expanded ls r).failed = some x ↔
      ∃ done line rest, ls = done ++ line :: rest ∧ (convertAll c a expanded done r).failed = none ∧
        (convertAll c a expanded done r).convertLine c a expanded line = .error x := by
  induction ls generalizing r with
  | nil => simp [convertAll, hr]
  | cons line ls ih =>
    rw [convertAll_cons]
    cases hline : r.convertLine c a expanded line with
    | error e =>
      constructor
      · intro he
        exact ⟨[], line, ls, rfl, hr, by rw [← Option.some.inj he]; exact hline⟩
      · rintro ⟨done, line', rest, hsplit, hdone, hfails⟩
        cases done with
        | nil =>
          obtain ⟨rfl, -⟩ := List.cons.inj hsplit
          exact congrArg some (Except.error.inj (hline.symm.trans hfails))
        | cons _ done =>
          obtain ⟨rfl, -⟩ := List.cons.inj hsplit
          rw [convertAll_cons, hline] at hdone
          cases hdone
    | ok r' =>
      have hnext : ∀ done, convertAll c a expanded (line :: done) r = convertAll c a expanded done r' := by
        intro done
        rw [convertAll_cons, hline]
      rw [show (convertAll c a expanded ls r').failed = some x ↔ _ from
        ih ((failed_of_convertLine hline).trans hr)]
      constructor
      · rintro ⟨done, line', rest, rfl, hdone, hfails⟩
        exact ⟨line :: done, line', rest, rfl, by rw [hnext]; exact hdone, by rw [hnext]; exact hfails⟩
      · rintro ⟨done, line', rest, hsplit, hdone, hfails⟩
        cases done with
        | nil =>
          obtain ⟨rfl, -⟩ := List.cons.inj hsplit
          rw [show convertAll c a expanded [] r = r from rfl, hline] at hfails
          cases hfails
        | cons _ done =>
          obtain ⟨rfl, rfl⟩ := List.cons.inj hsplit
          rw [hnext] at hdone hfails
          exact ⟨done, line', rest, rfl, hdone, hfails⟩

end CallRun

end CoordSplit
