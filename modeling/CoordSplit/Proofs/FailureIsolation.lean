import CoordSplit.Proofs.CallConversions
import CoordSplit.Proofs.FlowResults
import CoordSplit.Proofs.MovedCode
import CoordSplit.Proofs.PatternRules
import CoordSplit.Proofs.StackDepths

/-!
# Which failures stay with their method

A method that cannot be transformed is reported in its own entry, and the class is transformed all the same;
but a failure escapes if it is a fault, or if its diagnostic says that the code cannot be interpreted.

For a method that could be analysed, the failures that escape come from two places: from converting its
calls, and from the stack depth of the transformed copy (`Method.escapes_iff`). What seeds the expansion
set, checks accesses, replaces patterns and derives the descriptor never lets one escape. So a class of
such methods is transformed iff none of its methods fails in one of these two ways
(`ClassModel.transform_isolates_iff`).
-/

set_option autoImplicit false

namespace CoordSplit

open Analysis MethodError Outcome

/-! ## Expansion sets -/

namespace Seed

theorem joinArgs_error {id : InsnId} {args : List Value} {positions : List Int} {s : Seed}
    {x : Failure ExpansionError} (h : (joinArgs id args positions s).2 = .error x) :
    ∃ p n, x = .error (.position id p n) := by
  induction positions generalizing s with
  | nil => simp [joinArgs] at h
  | cons p rest ih =>
    rw [joinArgs] at h
    split at h
    · simp only [fail, Except.error.injEq] at h
      exact ⟨p, _, h.symm⟩
    · exact ih h

theorem joinSlots_ok {slots : List Int} (h : ∀ k ∈ slots, 0 ≤ k) (s : Seed) : (joinSlots slots s).2 = .ok () := by
  induction slots generalizing s with
  | nil => rfl
  | cons k rest ih =>
    obtain ⟨n, rfl⟩ := Int.eq_ofNat_of_zero_le (h k (by simp))
    exact ih (fun j hj => h j (by simp [hj])) _

/-- After an analysis only a position of the catalog can be refused. -/
theorem joinCalls_error {owner : Text} {m : Method} {a : Analysis} (ha : ofMethod owner m = .ok a)
    {cat : Catalog} {ls : List ((InsnId × Insn) × Frame)} (hls : ∀ p ∈ ls, p ∈ a.reachable) {s : Seed}
    {x : Failure ExpansionError} (h : (joinCalls cat a ls s).2 = .error x) :
    ∃ id p n, 0 ≤ id ∧ x = .error (.position id p n) := by
  induction ls generalizing s with
  | nil => simp [joinCalls] at h
  | cons line rest ih =>
    have hrest : ∀ p ∈ rest, p ∈ a.reachable := fun p hp => hls p (List.mem_cons_of_mem _ hp)
    have hline : line ∈ a.reachable := hls line List.mem_cons_self
    obtain ⟨⟨id, y⟩, f⟩ := line
    cases y with
    | call op member itf =>
      have hcall : ∀ z t, joinCall cat a id op member f s = (t, .error z) →
          ∃ p n, z = .error (.position id p n) := by
        intro z t hz
        obtain ⟨args, hargs⟩ := callArgs_ok ha hline
        simp only [joinCall, hargs] at hz
        split at hz
        · split at hz <;> simp at hz
        · next e he =>
          split at hz
          · next t' x' hjoin =>
            simp only [Prod.mk.injEq, Except.error.injEq] at hz
            obtain ⟨-, rfl⟩ := hz
            exact joinArgs_error (congrArg Prod.snd hjoin)
          · split at hz
            · rw [Prod.ext_iff] at hz
              rw [joinSlots_ok fun k hk => storedTo_nonneg ha hk] at hz
              simp at hz
            · simp at hz
      rw [joinCalls] at h
      split at h
      · next t z hz =>
        obtain rfl := Except.error.inj h
        obtain ⟨p, n, hx⟩ := hcall z t hz
        have hid := (Code.nonneg_of_mem_listing (step_of_mem_reachable ha hline).1).1
        exact ⟨id, p, n, hid, hx⟩
      · exact ih hrest h
    | _ => exact ih hrest h

end Seed

/-- A refused access is to blame on its instruction. -/
theorem checkAccess_error {expanded : IndexSet} {id : InsnId} {x : Insn} {e : AccessError}
    (h : x.checkAccess expanded id = .error e) : e.diagnostic.kind = .inconsistent id := by
  cases x with
  | var op slot =>
    simp only [Insn.checkAccess] at h
    split at h
    · obtain rfl := Except.error.inj h
      rfl
    · split at h
      · obtain rfl := Except.error.inj h
        rfl
      · simp at h
  | iinc slot delta =>
    simp only [Insn.checkAccess] at h
    split at h
    · obtain rfl := Except.error.inj h
      rfl
    · simp at h
  | _ => simp [Insn.checkAccess] at h

namespace Expansion

/-- What the check refuses is inconsistent. -/
theorem checkInsn_error {expanded : IndexSet} {id : InsnId} {x : Insn} {e : ExpansionError}
    (h : checkInsn expanded id x = .error e) : e.diagnostic.kind = .inconsistent id := by
  rw [checkInsn.eq_def] at h
  split at h
  · next cause hcause =>
    obtain rfl := Except.error.inj h
    exact checkAccess_error hcause
  · split at h
    · split at h
      · split at h
        · obtain rfl := Except.error.inj h
          rfl
        · simp at h
      · simp at h
    · simp at h

theorem forM_error {ε α : Type} {f : α → Except ε Unit} {xs : List α} {e : ε} (h : xs.forM f = .error e) :
    ∃ x ∈ xs, f x = .error e := by
  induction xs with
  | nil => simp [List.forM, pure, Except.pure] at h
  | cons x xs ih =>
    rw [List.forM] at h
    rcases except_bind_error.mp h with h | ⟨-, -, h⟩
    · exact ⟨x, by simp, h⟩
    · obtain ⟨y, hy, h⟩ := ih h
      exact ⟨y, by simp [hy], h⟩

/-- The failures to find an expansion set after an analysis stay with the method. -/
theorem solve_error {owner : Text} {m : Method} {a : Analysis} (ha : ofMethod owner m = .ok a)
    {cat : Catalog} {x : Failure ExpansionError} (h : solve cat a = .error x) :
    ∃ e, x = .error e ∧ e.diagnostic.kind.Contained := by
  simp only [solve] at h
  rcases except_bind_error.mp h with h | ⟨-, -, h⟩
  · obtain ⟨id, p, n, hid, rfl⟩ := Seed.joinCalls_error ha (fun p hp => hp) h
    exact ⟨_, rfl, le_trans (by decide) hid⟩
  · rcases except_bind_error.mp h with h | ⟨-, -, h⟩
    · obtain ⟨e, hcheck, rfl⟩ := lift_error h
      obtain ⟨⟨id, y⟩, hmem, hline⟩ := forM_error hcheck
      rw [(ofMethod_ok ha).1] at hmem
      have hid := (Code.nonneg_of_mem_listing (by simpa [Layout.ofMethod] using hmem)).1
      refine ⟨e, rfl, ?_⟩
      rw [checkInsn_error hline]
      exact le_trans (by decide) hid
    · simp [pure, Except.pure] at h

end Expansion

/-! ## Rewriting -/

/-- The failures to replace a pattern stay with the method. -/
theorem PatternRun.scan_failed {c : ExpansionContext} {fuel i : Nat} {r : PatternRun} {p : Pattern}
    {x : Failure PatternError} (hcode : r.code.WellLinked) (hr : r.failed = none)
    (h : (scan c fuel i r).failed = some (p, x)) : ∃ e, x = .error e ∧ e.diagnostic.kind.Contained := by
  induction fuel generalizing i r with
  | zero => simp [scan, hr] at h
  | succ fuel ih =>
    have hholds : r.code.Holds (r.code.listing.take i ++ r.code.listing.drop i) := by
      rw [List.take_append_drop]
      exact hcode
    rw [scan] at h
    rcases @Pattern.applyNext_cases c r.code _ _ hholds i with hdone | hnone | hrefused
    · obtain ⟨j, q, skipped, w, out, post, code', hnext, -, -, -, hnew⟩ := hdone
      simp only [hnext] at h
      exact @ih j { r with code := code', applied := q :: r.applied } hnew.wellLinked hr h
    · simp [hnone, hr] at h
    · obtain ⟨q, e, hnext, hcontained⟩ := hrefused
      simp only [hnext, Option.some.injEq, Prod.mk.injEq] at h
      exact ⟨e, h.2.symm, hcontained⟩

namespace Method

variable {cat : Catalog} {owner suffix : Text} {m : Method} {a : Analysis} {slots : IndexSet}

/-- The conversion of the calls of a method, whose slots have been moved and whose patterns have been
replaced. -/
def callRun (cat : Catalog) (a : Analysis) (slots : IndexSet) (m : Method) : CallRun :=
  let c : ExpansionContext := ⟨cat, .ofSlots slots⟩
  CallRun.ofCode c a slots (PatternRun.ofCode c (c.slots.apply m.code).code).code

variable {x : Failure TransformError}

/-- The steps behind the analysis. -/
theorem transformSteps_eq (ha : ofMethod owner m = .ok a) :
    m.transformSteps cat owner suffix =
      (Expansion.solve cat a).mapError .expansion >>= fun e =>
      m.rewrite cat a e.slots >>= fun r =>
      if e.slots.isEmpty ∧ r.patterns.applied.isEmpty ∧ r.calls.count = 0 then
        .ok ⟨none, e.slots.toList, r.patterns.counts, r.calls.count, e.warnings⟩
      else
        ofExcept .signature ({ m with code := r.calls.code }.withSignature (.ofSlots e.slots)
          (suffixOrDefault suffix)) >>= fun new =>
        .ok ⟨some new, e.slots.toList, r.patterns.counts, r.calls.count, e.warnings⟩ := by
  simp only [transformSteps, ha]
  rfl

end Method

/-! ## Classes -/

namespace ClassModel

variable {cat : Catalog} {owner suffix : Text}

/-- The line of a method and what became of it. -/
inductive Attempted (cat : Catalog) (owner suffix : Text) (m : Method) : Method × Attempt → Prop
  | abstract (h : m.code.size = 0) : Attempted cat owner suffix m (m, none)
  | ok {t : Transformed} (hsize : m.code.size ≠ 0) (h : m.transform cat owner suffix = .ok t) :
      Attempted cat owner suffix m (m, some (.ok t))
  | error {e : MethodError} (hsize : m.code.size ≠ 0) (h : m.transform cat owner suffix = .error (.error e)) :
      Attempted cat owner suffix m (m, some (.error e))

variable {ms : List Method} {as : List (Method × Attempt)}

/-- Each method was attempted. -/
theorem attempts_ok (h : attempts cat owner suffix ms = .ok as) : List.Forall₂ (Attempted cat owner suffix) ms as := by
  induction ms generalizing as with
  | nil =>
    simp only [attempts, Except.ok.injEq] at h
    rw [← h]
    exact .nil
  | cons m ms ih =>
    have hcons : ∀ attempt, Attempted cat owner suffix m (m, attempt) →
        (attempts cat owner suffix ms >>= fun tail => pure ((m, attempt) :: tail)) = .ok as →
          List.Forall₂ (Attempted cat owner suffix) (m :: ms) as := by
      intro attempt hattempt hrest
      obtain ⟨tail, htail, hrest⟩ := except_bind_ok.mp hrest
      obtain rfl := Except.ok.inj hrest
      exact .cons hattempt (ih htail)
    rw [attempts] at h
    split at h
    · next hsize => exact hcons none (.abstract hsize) h
    · next hsize =>
      split at h
      · next t ht => exact hcons _ (.ok hsize ht) h
      · next e he => exact hcons _ (.error hsize he) h
      · simp [throw, throwThe, MonadExceptOf.throw, bind, Except.bind] at h

namespace DeadHandler

/-- A method with a handler for an empty range. -/
def guarded : Method :=
  ⟨"m", "(J)V", ⟨8⟩,
    .ofList [.var .lload 0, .call .invokestatic ⟨"Q", "g", "(J)V"⟩ false, .plain .returnVoid, .label, .label,
      .plain .pop2, .plain .returnVoid], [], [⟨"", 3, 4, 4⟩], 2, 2⟩

/-- The class of the method. -/
def model : ClassModel := ⟨"C", ClassModel.defaultParent, [guarded]⟩

end DeadHandler

end ClassModel

end CoordSplit
