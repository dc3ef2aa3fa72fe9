import CoordSplit.Proofs.AssemblyPrinting
import CoordSplit.Proofs.ClassOutput
import CoordSplit.Proofs.ClassRecords

/-!
# How transformed methods can be written

No stage of a transformation takes away a label or brings in a reference to something else, so a transformed method
refers to labels only, if the method did (`Method.Keeps`). What then decides whether it has a text or a record are
its instructions alone, and those that have none are not touched: the transformed method has a text, or a record,
exactly if all instructions of the method can be written so (`Method.transform_references`).

Instructions in the form that their opcodes ask for stay in form, so a class that can be put on record can be put on
record after a transformation (`ClassModel.transform_recordable`).
-/

set_option autoImplicit false

namespace CoordSplit

/-! ## Instructions that have a text or a record -/

namespace Insn

theorem isFixture_of_not_printable {x : Insn} (h : x.isPrintable = false) : x.isFixture = true := by
  cases x with
  | ldc c => cases c <;> first | rfl | simp [isPrintable] at h
  | _ => first | rfl | simp [isPrintable] at h

theorem isFixture_of_not_recordable {x : Insn} (h : x.isRecordable = false) : x.isFixture = true := by
  cases x with
  | ldc c => cases c <;> first | rfl | simp [isRecordable, Constant.isRecordable] at h
  | _ => simp [isRecordable] at h

/-- What rewriting puts in has the form that its opcode asks for. -/
theorem admits_formed (c : ExpansionContext) : c.Admits Formed where
  added h := by
    cases h with
    | part h => rcases h with rfl | rfl <;> exact ⟨Opcode.mem_named rfl, rfl, by simp⟩
    | sentinel value => exact ⟨Opcode.mem_named rfl, rfl, by simp [Constant.isRecordable]⟩
    | accessor m => exact ⟨Opcode.mem_named rfl, rfl, by simp [ofAccessor]⟩
    | @plain op h =>
      simp only [List.mem_cons, List.not_mem_nil, or_false] at h
      rcases h with rfl | rfl | rfl | rfl <;> exact ⟨Opcode.mem_named rfl, rfl, by simp⟩
    | jump h target => rcases h with rfl | rfl <;> exact ⟨Opcode.mem_named rfl, rfl, by simp⟩
    | label => exact ⟨Opcode.mem_named rfl, rfl, by simp⟩
  redirected m' h := ⟨h.named, h.kind, by simp⟩

/-- Rewriting leaves instructions in the form that their opcodes ask for. -/
theorem stable_formed : Stable Formed where
  admits := admits_formed
  moved s x h := by
    cases x with
    | var op slot => exact ⟨h.named, h.kind, by simp [SlotMap.mapInsn]⟩
    | iinc slot delta => exact ⟨h.named, h.kind, by simp [SlotMap.mapInsn]⟩
    | _ => exact h

end Insn

/-- Of two codes with the same fixtures, both or none have only instructions that can be written in a way in which
everything else can be. -/
theorem Code.Reworks.forall_iff {c d : Code} {P : (Insn → Prop) → Prop} {Q : Insn → Bool} (h : c.Reworks P d)
    (hQ : ∀ x, Q x = false → x.isFixture = true) :
    (∀ p ∈ d.listing, Q p.2 = true) ↔ ∀ p ∈ c.listing, Q p.2 = true := by
  have hfixtures : ∀ e : Code, (∀ p ∈ e.listing, Q p.2 = true) ↔ ∀ p ∈ e.fixtures, Q p.2 = true := by
    intro e
    unfold Code.fixtures
    constructor
    · intro he p hp
      exact he p (List.mem_filter.mp hp).1
    · intro he p hp
      by_contra hfalse
      have hfixture := hQ p.2 (by simpa using hfalse)
      exact hfalse (he p (List.mem_filter.mpr ⟨hp, hfixture⟩))
  rw [hfixtures, hfixtures, h.fixtures]

/-! ## Methods -/

namespace Method

variable {cat : Catalog} {owner suffix : Text} {m new : Method}

/-- What a method that came about from `m` keeps: everything it refers to is a label of its code, and the labels of
`m` are labels, in their order. -/
structure Keeps (m new : Method) : Prop where
  linked : new.code.WellLinked
  anchored : new.Anchored
  labels : m.code.labels.Sublist new.code.labels

theorem Reworks.keeps (h : m.Reworks new) (hm : m.Anchored) : m.Keeps new :=
  ⟨h.code.linked, h.anchored hm, h.code.labels⟩

/-- A transformed method has a text iff all instructions of the method can be printed. -/
theorem Reworks.methodText_iff (h : m.Reworks new) (hm : m.Anchored) :
    (∃ t, Assembly.methodText new = .ok t) ↔ ∀ p ∈ m.code.listing, p.2.isPrintable = true := by
  rw [Assembly.methodText_ok_iff (h.anchored hm)]
  exact h.code.forall_iff fun _ => Insn.isFixture_of_not_printable

/-- A transformed method has a record iff all instructions of the method can be put on record. -/
theorem Reworks.ofMethod_iff (h : m.Reworks new) (hm : m.Anchored) :
    (∃ r, MethodRecord.ofMethod new = .ok r) ↔ ∀ p ∈ m.code.listing, p.2.isRecordable = true := by
  rw [MethodRecord.ofMethod_ok_iff (h.anchored hm)]
  exact h.code.forall_iff fun _ => Insn.isFixture_of_not_recordable

/-- A method with a new signature has a descriptor that can be read. -/
theorem withSignature_type {s : SlotMap} (h : m.withSignature s suffix = .ok new) :
    ∃ t, MethodType.parse new.desc = .ok t := by
  obtain ⟨hdesc, -⟩ := withSignature_ok h
  obtain ⟨f, g, indices, hf, -, hsplit, hnew⟩ := expandedDesc_ok hdesc
  refine ⟨g, ?_⟩
  rw [hnew]
  apply MethodType.parse_desc
  exact (MethodType.writable_of_parse hf).split hsplit

/-- A transformed method can be put on record if the method can. -/
theorem Recordable.transform {t : Transformed} (hm : m.Recordable) (h : m.transform cat owner suffix = .ok t)
    (hnew : t.method = some new) : new.Recordable := by
  have hreworks := transform_reworks hm.linked h hnew
  obtain ⟨a, e, r, -, -, -, -, hsigned⟩ := transformSteps_some (transform_ok.mp h) hnew
  refine ⟨hreworks.code.linked, hreworks.anchored hm.anchored, ?_, ?_, withSignature_type hsigned⟩
  · exact hreworks.code.insns Insn.stable_formed hm.formed
  · obtain ⟨-, -, -, haccess⟩ := withSignature_ok hsigned
    rw [haccess]
    exact hm.access

/-- References stay intact. Let everything that a method refers to be a label of its code. Then the same holds after
each stage of its transformation, with all labels kept in their order: when the slots are moved, when patterns are
replaced, when calls are converted and when the method gets its new signature. The method that the transformation
gives has a text iff all instructions of the method can be printed, and a record iff all can be put on record. -/
theorem transform_references (hcode : m.code.WellLinked) (hm : m.Anchored) :
    (∀ (a : Analysis) (slots : IndexSet),
      let c : ExpansionContext := ⟨cat, .ofSlots slots⟩
      let moved := c.slots.apply m.code
      let patterns := PatternRun.ofCode c moved.code
      let calls := CallRun.ofCode c a slots patterns.code
      moved.refused = none → m.Keeps { m with code := moved.code } ∧
        (patterns.failed = none → m.Keeps { m with code := patterns.code } ∧
          (calls.failed = none → m.Keeps { m with code := calls.code } ∧
            ∀ new, { m with code := calls.code }.withSignature c.slots suffix = .ok new → m.Keeps new))) ∧
      ∀ t new, m.transform cat owner suffix = .ok t → t.method = some new → m.Keeps new ∧
        ((∃ text, Assembly.methodText new = .ok text) ↔ ∀ p ∈ m.code.listing, p.2.isPrintable = true) ∧
        ((∃ r, MethodRecord.ofMethod new = .ok r) ↔ ∀ p ∈ m.code.listing, p.2.isRecordable = true) := by
  constructor
  · intro a slots c moved patterns calls hmoved
    have h₁ : m.code.Reworks Insn.Stable moved.code := SlotMap.apply_reworks hcode hmoved
    have h₂ : m.code.Reworks Insn.Stable patterns.code := h₁.trans (PatternRun.ofCode_reworks c h₁.linked).stable
    have h₃ : m.code.Reworks Insn.Stable calls.code := h₂.trans (CallRun.ofCode_reworks c a slots h₂.linked).stable
    refine ⟨(Reworks.of_code h₁).keeps hm, fun _ => ⟨(Reworks.of_code h₂).keeps hm, fun _ =>
      ⟨(Reworks.of_code h₃).keeps hm, ?_⟩⟩⟩
    intro new hnew
    have h₄ := withSignature_reworks (m := { m with code := calls.code }) h₃.linked hnew
    have h : m.Reworks new := ⟨h₃.trans h₄.code, h₄.handlers, h₄.locals⟩
    exact h.keeps hm
  · intro t new ht hnew
    have h := transform_reworks hcode ht hnew
    exact ⟨h.keeps hm, h.methodText_iff hm, h.ofMethod_iff hm⟩

namespace KeylessSwitch

/-- A method that passes its packed parameter on, and then has a switch with a case that has no key. -/
def method : Method :=
  ⟨"m", "(J)V", ⟨8⟩, .ofList [.var .lload 0, .call .invokestatic ⟨"Q", "g", "(J)V"⟩ false, .plain .iconst0,
    .switch .lookupswitch [] 4 [4], .label, .plain .returnVoid], [], [], 2, 2⟩

theorem anchored : method.Anchored := by
  apply anchored_iff.mpr
  refine ⟨?_, by simp [method], by simp [method]⟩
  decide +kernel

/-- The transformed method still refers to labels and has a record, but no text: the switch cannot be printed. -/
theorem transform_references_keylessSwitch :
    ∃ t new, method.transform .oneEntry "C" "" = .ok t ∧ t.method = some new ∧
      method.Keeps new ∧ (¬ ∃ text, Assembly.methodText new = .ok text) ∧
      ∃ r, MethodRecord.ofMethod new = .ok r := by
  have hsome : ((method.transform .oneEntry "C" "").toOption.bind Transformed.method).isSome =
      true := by decide +kernel
  obtain ⟨new, hnew⟩ := Option.isSome_iff_exists.mp hsome
  obtain ⟨t, h, hnew⟩ := except_ok_of_bind hnew
  have hcode : method.code.WellLinked := (Code.holds_ofList _).wellLinked
  obtain ⟨hkeeps, htext, hrecord⟩ := (transform_references hcode anchored).2 t new h hnew
  refine ⟨t, new, h, hnew, hkeeps, ?_, hrecord.mpr (by decide +kernel)⟩
  rw [htext]
  decide +kernel

end KeylessSwitch

end Method

/-! ## Classes -/

/-- A transformed class can be put on record if the class can. -/
theorem ClassModel.Recordable.transform {cat : Catalog} {suffix run : Text} {c out : ClassModel} {report : Report}
    (hc : c.Recordable) (h : c.transform cat suffix run = .ok (out, report)) : out.Recordable := by
  obtain ⟨rs, copies, hsettles, rfl, -⟩ := transform_settles h
  intro m hm
  rcases List.mem_append.mp hm with hm | hm
  · exact hc m hm
  · obtain ⟨k, hk, -, t, ht, hnew⟩ := hsettles.yields_of_mem hm
    exact (hc k hk).transform ht hnew

end CoordSplit
