import CoordSplit.Transform
import Mathlib.Tactic

/-!
# The stages of a transformation

What a successful transformation went through, stage by stage, so that no other proof has to open
`Method.transformSteps`. `Outcome` computations are taken apart by the lemmas at the start.
-/

set_option autoImplicit false

namespace CoordSplit

/-! ## Outcomes -/

variable {ε α β : Type}

/-- Two steps succeed iff both do. -/
theorem except_bind_ok {x : Except ε α} {f : α → Except ε β} {b : β} :
    (x >>= f) = .ok b ↔ ∃ a, x = .ok a ∧ f a = .ok b := by
  cases x with
  | error e => simp [bind, Except.bind]
  | ok a => simp [bind, Except.bind]

/-- A value tells what succeeded. -/
theorem except_ok_of_toOption {x : Except ε α} {a : α} (h : x.toOption = some a) : x = .ok a := by
  cases x with
  | error => cases h
  | ok => exact congrArg _ (Option.some.inj h)

/-- What was computed from the result of a computation shows that there is one. -/
theorem except_ok_of_bind {x : Except ε α} {f : α → Option β} {b : β}
    (h : x.toOption.bind f = some b) : ∃ a, x = .ok a ∧ f a = some b := by
  obtain ⟨a, ha, hb⟩ := Option.bind_eq_some_iff.mp h
  exact ⟨a, except_ok_of_toOption ha, hb⟩

/-- So does what is seen of a value. -/
theorem except_ok_of_map {x : Except ε α} {f : α → β} {b : β}
    (h : x.toOption.map f = some b) : ∃ a, x = .ok a ∧ f a = b := by
  obtain ⟨a, ha, hb⟩ := Option.map_eq_some_iff.mp h
  exact ⟨a, except_ok_of_toOption ha, hb⟩

/-- Two steps fail iff one does. -/
theorem except_bind_error {x : Except ε α} {f : α → Except ε β} {e : ε} :
    (x >>= f) = .error e ↔ x = .error e ∨ ∃ a, x = .ok a ∧ f a = .error e := by
  cases x with
  | error e => simp [bind, Except.bind]
  | ok a => simp [bind, Except.bind]

/-- A function that may fail succeeds on all members of a list iff it succeeds on each. -/
theorem mapM_ok_iff {f : α → Except ε β} {xs : List α} {ys : List β} :
    xs.mapM f = .ok ys ↔ List.Forall₂ (fun x y => f x = .ok y) xs ys := by
  induction xs generalizing ys with
  | nil =>
    rw [List.mapM_nil, List.forall₂_nil_left_iff]
    exact ⟨fun h => (Except.ok.inj h).symm, fun h => h ▸ rfl⟩
  | cons x xs ih =>
    rw [List.mapM_cons, List.forall₂_cons_left_iff, except_bind_ok]
    constructor
    · rintro ⟨y, hy, h⟩
      obtain ⟨zs, hzs, h⟩ := except_bind_ok.mp h
      exact ⟨y, zs, hy, ih.mp hzs, (Except.ok.inj h).symm⟩
    · rintro ⟨y, zs, hy, hzs, rfl⟩
      exact ⟨y, hy, except_bind_ok.mpr ⟨zs, ih.mpr hzs, rfl⟩⟩

/-- A list fails at a member. -/
theorem mapM_error {f : α → Except ε β} {xs : List α} {e : ε} (h : xs.mapM f = .error e) :
    ∃ x ∈ xs, f x = .error e := by
  induction xs with
  | nil => cases h
  | cons x xs ih =>
    rw [List.mapM_cons] at h
    rcases except_bind_error.mp h with h | ⟨y, -, h⟩
    · exact ⟨x, List.mem_cons_self, h⟩
    · rcases except_bind_error.mp h with h | ⟨ys, -, h⟩
      · obtain ⟨x', hx', h⟩ := ih h
        exact ⟨x', List.mem_cons_of_mem x hx', h⟩
      · cases h

/-- A list succeeds if all its members do. -/
theorem mapM_eq_ok {f : α → Except ε β} {g : α → β} {xs : List α} (h : ∀ x ∈ xs, f x = .ok (g x)) :
    xs.mapM f = .ok (xs.map g) :=
  mapM_ok_iff.mpr (List.forall₂_map_right_iff.mpr (List.forall₂_same.mpr h))

namespace Outcome

variable {ε δ α : Type}

variable {f : ε → δ} {x : Except ε α} {a : α}

/-- Another error is no success. -/
theorem mapError_ok {x : Outcome ε α} : x.mapError f = .ok a ↔ x = .ok a := by
  match x with
  | .ok b => simp [mapError]
  | .error (.fault g) => simp [mapError]
  | .error (.error e) => simp [mapError]

/-- Faults stay, and errors are renamed. -/
theorem mapError_error {x : Outcome ε α} {y : Failure δ} (h : x.mapError f = .error y) :
    (∃ g, x = .error (.fault g) ∧ y = .fault g) ∨ ∃ e, x = .error (.error e) ∧ y = .error (f e) := by
  match x, h with
  | .error (.fault g), h =>
    simp only [mapError, Except.error.injEq] at h
    exact .inl ⟨g, rfl, h.symm⟩
  | .error (.error e), h =>
    simp only [mapError, Except.error.injEq] at h
    exact .inr ⟨e, rfl, h.symm⟩

/-- A success stays one. -/
theorem ofExcept_ok : ofExcept f x = .ok a ↔ x = .ok a := by
  cases x <;> simp [ofExcept]

/-- An error is renamed. -/
theorem ofExcept_error {y : Failure δ} (h : ofExcept f x = .error y) : ∃ e, x = .error e ∧ y = .error (f e) := by
  cases x with
  | ok a => simp [ofExcept] at h
  | error e =>
    simp only [ofExcept, Except.error.injEq] at h
    exact ⟨e, rfl, h.symm⟩

/-- A success stays one. -/
theorem lift_ok : lift x = .ok a ↔ x = .ok a := by
  cases x <;> simp [lift]

/-- An error stays one. -/
theorem lift_error {y : Failure ε} (h : lift x = .error y) : ∃ e, x = .error e ∧ y = .error e := by
  cases x with
  | ok a => simp [lift] at h
  | error e =>
    simp only [lift, Except.error.injEq] at h
    exact ⟨e, rfl, h.symm⟩

/-- A success stays one. -/
theorem ofFault_ok {x : Except Fault α} : (ofFault x : Outcome ε α) = .ok a ↔ x = .ok a := by
  cases x <;> simp [ofFault]

end Outcome

/-! ## Diagnostics -/

namespace Diagnostic

/-- The failure stays with its method: the code can be interpreted, and what is to blame can be located. -/
def Kind.Contained : Kind → Prop
  | .malformed _ => False
  | .inconsistent id => -1 ≤ id
  | _ => True

end Diagnostic

/-! ## Expansion sets -/

namespace Expansion

/-- The stages that a method with an expansion set went through, and what they reported. -/
structure Solved (cat : Catalog) (a : Analysis) (e : Expansion) : Prop where
  seeded : (Seed.ofAnalysis cat a).2 = .ok ()
  slots : e.slots = (close a (Seed.ofAnalysis cat a).1.slots).1
  checked : check a e.slots = .ok ()
  warnings : e.warnings = (Seed.ofAnalysis cat a).1.warnings.reverse
  unknown : e.unknown = unknownCalls cat a

/-- What it is to be solved. -/
theorem solve_ok {cat : Catalog} {a : Analysis} {e : Expansion} (h : solve cat a = .ok e) : Solved cat a e := by
  obtain ⟨⟨⟩, hseed, h⟩ := except_bind_ok.mp h
  obtain ⟨⟨⟩, hcheck, h⟩ := except_bind_ok.mp h
  rw [← Except.ok.inj h]
  exact ⟨hseed, rfl, Outcome.lift_ok.mp hcheck, rfl, rfl⟩

end Expansion

/-! ## Methods -/

namespace Method

variable {cat : Catalog} {owner suffix : Text} {m : Method}

/-- The suffix that names of transformed methods get. -/
def suffixOrDefault (suffix : Text) : Text := if suffix.isEmpty then defaultSuffix else suffix

/-- The transformation is its stages. -/
theorem transform_ok {t : Transformed} :
    m.transform cat owner suffix = .ok t ↔ m.transformSteps cat owner suffix = .ok t := by
  unfold transform
  match h : m.transformSteps cat owner suffix with
  | .ok r => simp
  | .error (.fault f) => simp
  | .error (.error cause) =>
    cases hc : MethodError.ofCause m cause <;> simp [hc, Outcome.fail]

/-- A method with a transformed copy went through all stages. -/
theorem transformSteps_some {t : Transformed} {new : Method}
    (h : m.transformSteps cat owner suffix = .ok t) (hnew : t.method = some new) :
    ∃ a e r, Analysis.ofMethod owner m = .ok a ∧ Expansion.solve cat a = .ok e ∧
      m.rewrite cat a e.slots = .ok r ∧ t.expanded = e.slots.toList ∧
      { m with code := r.calls.code }.withSignature (.ofSlots e.slots) (suffixOrDefault suffix) = .ok new := by
  unfold transformSteps at h
  obtain ⟨a, ha, h⟩ := except_bind_ok.mp h
  obtain ⟨e, he, h⟩ := except_bind_ok.mp h
  obtain ⟨r, hr, h⟩ := except_bind_ok.mp h
  refine ⟨a, e, r, Outcome.mapError_ok.mp ha, Outcome.mapError_ok.mp he, hr, ?_⟩
  split at h
  · simp only [pure, Except.pure, Except.ok.injEq] at h
    rw [← h] at hnew
    exact absurd hnew (by simp)
  · obtain ⟨made, hmade, h⟩ := except_bind_ok.mp h
    simp only [pure, Except.pure, Except.ok.injEq] at h
    rw [← h] at hnew ⊢
    simp only [Option.some.injEq] at hnew
    rw [← hnew]
    exact ⟨rfl, Outcome.ofExcept_ok.mp hmade⟩

/-- A rewritten code went through all stages without a refusal. -/
theorem rewrite_ok {a : Analysis} {slots : IndexSet} {r : Rewriting} (h : m.rewrite cat a slots = .ok r) :
    ((SlotMap.ofSlots slots).apply m.code).refused = none ∧
    r.patterns = PatternRun.ofCode ⟨cat, .ofSlots slots⟩ ((SlotMap.ofSlots slots).apply m.code).code ∧
    r.patterns.failed = none ∧
    r.calls = CallRun.ofCode ⟨cat, .ofSlots slots⟩ a slots r.patterns.code ∧
    r.calls.failed = none ∧ Leftover.find? (.ofSlots slots) r.calls.code = none := by
  simp only [rewrite, Code.clone_eq] at h
  split at h
  · simp [Outcome.fail] at h
  · next hmoved =>
    split at h
    · simp at h
    · simp [Outcome.fail] at h
    · next hpatterns =>
      split at h
      · simp at h
      · simp [Outcome.fail] at h
      · next hcalls =>
        split at h
        · simp [Outcome.fail] at h
        · next hleft =>
          obtain rfl := Except.ok.inj h
          exact ⟨hmoved, rfl, hpatterns, rfl, hcalls, hleft⟩

/-- The new descriptor is that of the type with the expanded parameters split. -/
theorem expandedDesc_ok {s : SlotMap} {desc : Text} (h : m.expandedDesc s = .ok desc) :
    ∃ f g indices, m.type = .ok f ∧
      expandedParams s 0 (if m.isStatic then 0 else 1) f.params = .ok indices ∧
      f.split indices = .ok g ∧ desc = g.desc := by
  unfold expandedDesc at h
  split at h
  · simp at h
  · next f hf =>
    obtain ⟨indices, hi, h⟩ := except_bind_ok.mp h
    split at h
    · simp [throw, throwThe, MonadExceptOf.throw] at h
    · next g hg =>
      simp only [pure, Except.pure, Except.ok.injEq] at h
      exact ⟨f, g, indices, hf, hi, hg, h.symm⟩

/-- The method with its new name, descriptor, variables and slots, but the old stack limit. -/
def signed (m : Method) (s : SlotMap) (suffix desc : Text) : Method :=
  let name := if desc = m.desc ∧ !Text.startsWith m.name "<" then m.name ++ suffix else m.name
  let m := { m with name := name, desc := desc, locals := m.locals.flatMap (LocalVar.expand s) }
  { m with maxLocals := m.expandedLimit s }

/-- The signature is set, and then the stack depth. -/
theorem withSignature_eq (m : Method) (s : SlotMap) (suffix : Text) :
    m.withSignature s suffix = m.expandedDesc s >>= fun desc =>
      match (m.signed s suffix desc).stackDepth with
      | .error e => .error (.depth e)
      | .ok n => .ok { m.signed s suffix desc with maxStack := n } := rfl

/-- A method with a new signature keeps its code, its handlers and its access flags. -/
theorem withSignature_ok {s : SlotMap} {new : Method} (h : m.withSignature s suffix = .ok new) :
    m.expandedDesc s = .ok new.desc ∧ new.code = m.code ∧ new.handlers = m.handlers ∧
      new.access = m.access := by
  rw [withSignature_eq] at h
  obtain ⟨desc, hdesc, h⟩ := except_bind_ok.mp h
  cases hdepth : (m.signed s suffix desc).stackDepth with
  | error e => simp [hdepth] at h
  | ok n =>
    simp only [hdepth, Except.ok.injEq] at h
    subst h
    exact ⟨hdesc, rfl, rfl, rfl⟩

end Method

/-- A catalog with one call that takes a packed coordinate, for examples of methods that make it. -/
def Catalog.oneEntry : Catalog :=
  ⟨[⟨⟨"Q", "g", "(J)V"⟩, false, [0], true, ⟨"Q", "g", "(III)V"⟩, none, false⟩],
   ⟨⟨"P", "x", "(J)I"⟩, ⟨"P", "y", "(J)I"⟩, ⟨"P", "z", "(J)I"⟩⟩, none, ⟨Int64.maxValue, Int32.maxValue⟩⟩

end CoordSplit
