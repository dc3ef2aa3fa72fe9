import CoordSplit.Proofs.ReferenceIntegrity
import CoordSplit.Proofs.WrittenForms
import CoordSplit.Record.OfClass
import CoordSplit.Record.ToClass

/-!
# Records of classes and back

A record keeps everything about a class but the ids of its instructions: the class of a record has them numbered by
position (`ClassModel.renumber`). A class whose code is linked, whose references are labels and whose instructions are
in the form that their opcodes ask for (`Method.Recordable`) has a record, and the class of the record is the class
renumbered (`ClassRecord.toClass_ofClass`). The class of any record is such a class, and is numbered by position
already (`ClassRecord.recordable_of_toClass`).
-/

set_option autoImplicit false

namespace CoordSplit

variable {α : Type} {op : Opcode} {c : Code}

/-- What stands on the right of a pairing stands opposite to something. -/
theorem forall₂_mem_right {β : Type} {R : α → β → Prop} {xs : List α} {ys : List β} (h : List.Forall₂ R xs ys)
    {y : β} (hy : y ∈ ys) : ∃ x ∈ xs, R x y := by
  induction h with
  | nil => simp at hy
  | cons hr _ ih =>
    rcases List.mem_cons.mp hy with rfl | hy
    · exact ⟨_, by simp, hr⟩
    · obtain ⟨x, hx, hr⟩ := ih hy
      exact ⟨x, by simp [hx], hr⟩

/-- What stands on the left of a pairing stands opposite to something. -/
theorem forall₂_mem_left {β : Type} {R : α → β → Prop} {xs : List α} {ys : List β} (h : List.Forall₂ R xs ys)
    {x : α} (hx : x ∈ xs) : ∃ y ∈ ys, R x y :=
  forall₂_mem_right h.flip hx

/-! ## Forms of instructions -/

/-- What an instruction has besides its opcode. -/
inductive OperandKind where
  | slot
  | immediate
  | constant
  | increment
  | field
  | call
  | type
  | dimensions
  | cases
  | target
  | mark
  deriving DecidableEq

/-- The operands that an opcode asks for; a target may be left out. -/
def Opcode.operandKind : Opcode → OperandKind
  | .iload | .lload | .fload | .dload | .aload | .istore | .lstore | .fstore | .dstore | .astore | .ret => .slot
  | .bipush | .sipush | .newarray => .immediate
  | .ldc => .constant
  | .iinc => .increment
  | .getstatic | .putstatic | .getfield | .putfield => .field
  | .invokevirtual | .invokespecial | .invokestatic | .invokeinterface | .invokedynamic => .call
  | .new | .anewarray | .checkcast | .instanceof => .type
  | .multianewarray => .dimensions
  | .tableswitch | .lookupswitch => .cases
  | .label => .mark
  | _ => .target

/-- The operands of an instruction. -/
def Insn.operandKind : Insn → OperandKind
  | .plain _ | .jump _ _ => .target
  | .push _ _ => .immediate
  | .ldc _ => .constant
  | .var _ _ => .slot
  | .iinc _ _ => .increment
  | .switch _ _ _ _ => .cases
  | .field _ _ => .field
  | .call _ _ _ => .call
  | .type _ _ => .type
  | .multiArray _ _ => .dimensions
  | .label => .mark

/-- Whether a constant is of a kind that records hold. -/
def Constant.isRecordable : Constant → Bool
  | .truth _ => false
  | .type (.object _) | .type (.array _) => true
  | .type _ => false
  | _ => true

theorem Constant.isRecordable_ofClassName (name : Text) : (Constant.type (.ofClassName name)).isRecordable = true := by
  rcases ValueType.ofClassName_cases name with h | ⟨elem, h, -⟩
  · rw [h]
    rfl
  · rw [h]
    rfl

/-- Whether an instruction has a record, given that what it refers to has a number. -/
def Insn.isRecordable : Insn → Bool
  | .ldc c => c.isRecordable
  | _ => true

/-- An instruction in the form that its opcode asks for. A class literal is the type of a class name. -/
structure Insn.Formed (x : Insn) : Prop where
  named : x.opcode ∈ Opcode.named
  kind : x.opcode.operandKind = x.operandKind
  const : ∀ c, x = .ldc c → c.isRecordable = true ∧ ∀ t, c = .type t → ∃ name, t = .ofClassName name

/-- The instruction with its targets renamed. -/
def Insn.redirect (place : InsnId → InsnId) : Insn → Insn
  | .jump op target => .jump op (place target)
  | .switch op keys otherwise targets => .switch op keys (place otherwise) (targets.map place)
  | x => x

theorem Opcode.ofName?_name (h : op ∈ named) : ofName? op.name = some op := by
  have hall : ∀ op ∈ named, ofName? op.name = some op := by decide +kernel
  exact hall op h

theorem Opcode.mem_named (h : op.isNamed = true) : op ∈ named := by
  have hplace : named[op.ctorIdx]? = some op := by
    cases op <;> first | rfl | cases h
  exact List.mem_of_getElem? hplace

theorem Opcode.mem_named_of_ofName? {t : Text} (h : ofName? t = some op) : op ∈ named :=
  List.mem_of_find?_eq_some h

theorem Opcode.name_of_ofName? {t : Text} (h : ofName? t = some op) : op.name = t := by
  simpa using List.find?_some h

/-- Some operands go with one opcode only. -/
theorem Opcode.eq_of_operandKind (op : Opcode) :
    (op.operandKind = .constant → op = .ldc) ∧ (op.operandKind = .increment → op = .iinc) ∧
      (op.operandKind = .dimensions → op = .multianewarray) ∧ (op.operandKind = .mark → op = .label) := by
  cases op <;> simp [operandKind]

/-! ## Records of instructions -/

/-- The record of a constant, if it has one. -/
def ConstantRecord.written : Constant → ConstantRecord
  | .int v => ⟨"int", Text.ofInt v.toInt⟩
  | .long v => ⟨"long", Text.ofInt v.toInt⟩
  | .float bits => ⟨"float", Text.hex bits.toNat⟩
  | .double bits => ⟨"double", Text.hex bits.toNat⟩
  | .string s => ⟨"string", s⟩
  | .type t => ⟨"class", t.display⟩
  | .truth _ => {}

/-- The record of an instruction, where `number` gives the numbers of labels. -/
def InsnRecord.written (number : InsnId → Int) (id : InsnId) (x : Insn) : InsnRecord :=
  let r : InsnRecord := { op := x.opcode.name }
  match x with
  | .label => { r with label := number id }
  | .plain _ => r
  | .push _ v => { r with int := v.toInt }
  | .ldc c => { r with const := some (.written c) }
  | .var _ slot => { r with slot := slot }
  | .iinc slot delta => { r with slot := slot, int := delta.toInt }
  | .jump _ target => { r with target := number target }
  | .switch _ keys otherwise targets =>
    { r with target := number otherwise, targets := targets.map number, keys := keys.map Int32.toInt }
  | .field _ m => { r with owner := m.owner, name := m.name, desc := m.desc }
  | .call _ m itf => { r with owner := m.owner, name := m.name, desc := m.desc, itf := itf }
  | .type _ name => { r with desc := name }
  | .multiArray desc dims => { r with desc := desc, int := dims }

theorem ConstantRecord.ofConstant_eq {c : Constant} (h : c.isRecordable = true) : ofConstant c = .ok (.written c) := by
  cases c with
  | truth b => simp [Constant.isRecordable] at h
  | type t => cases t <;> first | rfl | simp [Constant.isRecordable] at h
  | _ => rfl

/-- The record of a constant describes it. -/
theorem ConstantRecord.toConstant_written {c : Constant} (h : c.isRecordable = true)
    (htype : ∀ t, c = .type t → ∃ name, t = .ofClassName name) : (written c).toConstant = .ok c := by
  have hint : ∀ v : Int32, Text.intValue (.fixed 10) 32 (Text.ofInt v.toInt) = .ok v.toInt := fun v =>
    Text.intValue_ofInt (by omega) (Int32.le_toInt v) (Int32.toInt_lt v) _ (.inl rfl)
  have hlong : ∀ v : Int64, Text.intValue (.fixed 10) 64 (Text.ofInt v.toInt) = .ok v.toInt := fun v =>
    Text.intValue_ofInt (by omega) (Int64.le_toInt v) (Int64.toInt_lt v) _ (.inl rfl)
  have hbits : ∀ n top, n ≤ top → Text.natValue (.fixed 16) top (Text.hex n) = .ok n :=
    fun _ _ hn => Text.natValue_fixed (by omega) (by omega) hn
  cases c with
  | int v => simp +decide [written, toConstant, hint, Except.map]
  | long v => simp +decide [written, toConstant, hlong, Except.map]
  | float bits => simp +decide [written, toConstant, hbits _ 4294967295 (Nat.le_of_lt_succ bits.toNat_lt), Except.map]
  | double bits =>
    have hmax := hbits bits.toNat 18446744073709551615 (Nat.le_of_lt_succ bits.toNat_lt)
    simp +decide [written, toConstant, hmax, Except.map]
  | string s => simp +decide [written, toConstant]
  | type t =>
    obtain ⟨name, rfl⟩ := htype t rfl
    simp +decide [written, toConstant]
  | truth b => simp [Constant.isRecordable] at h

theorem ConstantRecord.isRecordable_of_ofConstant {c : Constant} {r : ConstantRecord} (h : ofConstant c = .ok r) :
    c.isRecordable = true := by
  cases c with
  | truth b => simp [ofConstant] at h
  | type t => cases t <;> first | rfl | simp [ofConstant] at h
  | _ => rfl

namespace InsnRecord

variable {ls : LabelNumbers} {number : InsnId → Int} {id : InsnId} {x : Insn}

theorem ofInsn_eq (hx : x.isRecordable = true) (hid : x.isLabel = true → ls.lookup id = some (number id))
    (h : ∀ t ∈ x.targets, ls.get t = .ok (number t)) : ofInsn ls id x = .ok (written number id x) := by
  cases x with
  | ldc c => simp [ofInsn, written, ConstantRecord.ofConstant_eq hx, bind, Except.bind, pure, Except.pure]
  | jump op t =>
    simp [ofInsn, written, h t (by simp [Insn.targets]), bind, Except.bind, pure, Except.pure]
  | switch op keys otherwise targets =>
    have htargets : targets.mapM ls.get = .ok (targets.map number) :=
      mapM_eq_ok fun t ht => h t (by simp [Insn.targets, ht])
    simp [ofInsn, written, h otherwise (by simp [Insn.targets]), htargets, bind, Except.bind, pure, Except.pure]
  | label => simp [ofInsn, written, hid rfl]
  | _ => rfl

variable {r : InsnRecord} {ids : LabelIds}

theorem isRecordable_of_ofInsn (h : ofInsn ls id x = .ok r) : x.isRecordable = true := by
  cases x with
  | ldc c =>
    obtain ⟨_, hc, -⟩ := except_bind_ok.mp h
    exact ConstantRecord.isRecordable_of_ofConstant hc
  | _ => rfl

theorem op_written (number : InsnId → Int) (id : InsnId) (x : Insn) : (written number id x).op = x.opcode.name := by
  cases x <;> rfl

/-- The records of labels are those of the opcode that only labels have. -/
theorem isLabel_written (hx : x.Formed) : (written number id x).isLabel = x.isLabel := by
  rw [isLabel, op_written, Bool.eq_iff_iff, decide_eq_true_eq]
  constructor
  · intro h
    have hopcode : x.opcode = .label := by
      have hname := Opcode.ofName?_name hx.named
      rw [h, Opcode.ofName?_name (by decide)] at hname
      exact (Option.some.inj hname).symm
    have hkind := hx.kind
    rw [hopcode] at hkind
    cases x <;> first | rfl | simp [Opcode.operandKind, Insn.operandKind] at hkind
  · intro h
    rw [Insn.eq_label_of_isLabel h]
    rfl

/-- What reading the record of an instruction comes to, by the kind of its operands. -/
theorem toInsn_eq {op : Opcode} (h : Opcode.ofName? r.op = some op) :
    r.toInsn ids = match op.operandKind with
      | .slot => .ok (.var op r.slot)
      | .immediate => .ok (.push op (Int32.ofInt r.int))
      | .constant =>
        match r.const with
        | none => .error .constantExpected
        | some c => (inPart "ldc" c.toConstant).map .ldc
      | .increment => .ok (.iinc r.slot (Int32.ofInt r.int))
      | .field => .ok (.field op ⟨r.owner, r.name, r.desc⟩)
      | .call => .ok (.call op ⟨r.owner, r.name, r.desc⟩ r.itf)
      | .type => .ok (.type op r.desc)
      | .dimensions => .ok (.multiArray r.desc r.int)
      | .cases => do
        let d ← ids.get r.target
        let ts ← r.targets.mapM ids.get
        return .switch op (r.keys.map Int32.ofInt) d ts
      | .target | .mark => if r.target = 0 then .ok (.plain op) else (ids.get r.target).map (.jump op) := by
  unfold toInsn
  rw [h]
  cases op <;> rfl

/-- The record of an instruction describes it, with the targets that the numbers of its targets stand for. -/
theorem toInsn_written {place : InsnId → InsnId} (hx : x.Formed) (hlabel : x.isLabel = false)
    (h : ∀ t ∈ x.targets, number t ≠ 0 ∧ ids.get (number t) = .ok (place t)) :
    (written number id x).toInsn ids = .ok (x.redirect place) := by
  have hop : Opcode.ofName? (written number id x).op = some x.opcode := by
    rw [op_written, Opcode.ofName?_name hx.named]
  rw [toInsn_eq hop, hx.kind]
  cases x with
  | label => simp [Insn.isLabel] at hlabel
  | ldc c =>
    obtain ⟨hrecordable, htype⟩ := hx.const c rfl
    simp [Insn.operandKind, written, ConstantRecord.toConstant_written hrecordable htype, inPart, Except.map,
      Insn.redirect]
  | jump op t =>
    obtain ⟨hne, hget⟩ := h t (by simp [Insn.targets])
    simp [Insn.operandKind, written, hne, hget, Except.map, Insn.redirect, Insn.opcode]
  | switch op keys otherwise targets =>
    have htargets : (targets.map number).mapM ids.get = .ok (targets.map place) := by
      rw [List.mapM_map]
      exact mapM_eq_ok fun t ht => (h t (by simp [Insn.targets, ht])).2
    simp [Insn.operandKind, written, (h otherwise (by simp [Insn.targets])).2, htargets, Insn.redirect, Insn.opcode,
      bind, Except.bind, pure, Except.pure, Function.comp_def]
  | _ => simp [Insn.operandKind, written, Insn.redirect, Insn.opcode]

/-- The constant of a record can be put on record, and a class literal is the type of a class name. -/
theorem isRecordable_of_toConstant {r : ConstantRecord} {c : Constant} (h : r.toConstant = .ok c) :
    c.isRecordable = true ∧ ∀ t, c = .type t → ∃ name, t = .ofClassName name := by
  have hmap : ∀ {α : Type} {x : Except RecordError α} {f : α → Constant}, x.map f = .ok c → ∃ a, c = f a := by
    intro α x f hx
    cases x with
    | error e => simp [Except.map] at hx
    | ok a => exact ⟨a, (Except.ok.inj hx).symm⟩
  unfold ConstantRecord.toConstant at h
  dsimp only at h
  split_ifs at h
  · obtain ⟨v, rfl⟩ := hmap h
    simp [Constant.isRecordable]
  · obtain ⟨v, rfl⟩ := hmap h
    simp [Constant.isRecordable]
  · obtain ⟨v, rfl⟩ := hmap h
    simp [Constant.isRecordable]
  · obtain ⟨v, rfl⟩ := hmap h
    simp [Constant.isRecordable]
  · obtain rfl := Except.ok.inj h
    simp [Constant.isRecordable]
  · obtain rfl := Except.ok.inj h
    exact ⟨Constant.isRecordable_ofClassName r.value, fun t ht => ⟨r.value, (Constant.type.inj ht).symm⟩⟩

/-- The instructions of records are in the form that their opcodes ask for, and go where the records say. -/
theorem formed_of_toInsn (hlabel : r.isLabel = false) (h : r.toInsn ids = .ok x) :
    x.Formed ∧ x.isLabel = false ∧ ∀ t ∈ x.targets, ∃ n, ids.get n = .ok t := by
  cases hop : Opcode.ofName? r.op with
  | none => simp [toInsn, hop] at h
  | some op =>
    have hnamed := Opcode.mem_named_of_ofName? hop
    have hunique := op.eq_of_operandKind
    rw [toInsn_eq hop] at h
    cases hkind : op.operandKind <;>
      simp only [hkind, true_implies, reduceCtorEq, false_implies, true_and, and_true] at h hunique
    case constant =>
      cases hconst : r.const with
      | none => simp [hconst] at h
      | some c =>
        simp only [hconst] at h
        cases hc : c.toConstant with
        | error e => simp [hc, inPart, Except.map] at h
        | ok v =>
          simp [hc, inPart, Except.map] at h
          subst h hunique
          refine ⟨⟨hnamed, rfl, ?_⟩, rfl, by simp [Insn.targets]⟩
          rintro _ ⟨⟩
          exact isRecordable_of_toConstant hc
    case cases =>
      obtain ⟨d, hd, h⟩ := except_bind_ok.mp h
      obtain ⟨ts, hts, h⟩ := except_bind_ok.mp h
      obtain rfl := Except.ok.inj h
      refine ⟨⟨hnamed, hkind, by simp⟩, rfl, ?_⟩
      intro t ht
      rcases List.mem_cons.mp ht with rfl | ht
      · exact ⟨_, hd⟩
      · obtain ⟨n, -, hn⟩ := forall₂_mem_right (mapM_ok_iff.mp hts) ht
        exact ⟨n, hn⟩
    case target =>
      split at h
      · obtain rfl := Except.ok.inj h
        exact ⟨⟨hnamed, hkind, by simp⟩, rfl, by simp [Insn.targets]⟩
      · cases hget : ids.get r.target with
        | error e => simp [hget, Except.map] at h
        | ok t =>
          simp [hget, Except.map] at h
          subst h
          exact ⟨⟨hnamed, hkind, by simp⟩, rfl, by simpa [Insn.targets] using ⟨_, hget⟩⟩
    case mark =>
      subst hunique
      simp [isLabel, Opcode.name_of_ofName? hop] at hlabel
    all_goals
      obtain rfl := Except.ok.inj h
      try subst hunique
      exact ⟨⟨hnamed, hkind, by simp⟩, rfl, by simp [Insn.targets]⟩

end InsnRecord

/-! ## Labels by number -/

theorem inPart_eq_ok {part : Text} {e : Except RecordError α} {a : α} : inPart part e = .ok a ↔ e = .ok a := by
  cases e <;> simp [inPart]

/-- The number of a label in records: labels are counted from one. -/
def Code.labelNumber (c : Code) (id : InsnId) : Int := ((1 + c.labels.idxOf id : Nat) : Int)

/-- The position of an instruction in the code. -/
def Code.place (c : Code) (id : InsnId) : InsnId := (c.ids.idxOf id : Int)

theorem labelNumbers_eq (n : Nat) (lines : List (InsnId × Insn)) :
    labelNumbers n lines =
      (((lines.filter fun p => p.2.isLabel).map Prod.fst).zipIdx n).map fun p => (p.1, (p.2 : Int)) := by
  induction lines generalizing n with
  | nil => rfl
  | cons p lines ih =>
    rw [labelNumbers]
    split
    · next hlabel => simp [← ih, hlabel]
    · next hlabel => simp [ih, hlabel]

theorem lookup_labelNumbers (c : Code) (id : InsnId) :
    (labelNumbers 1 c.listing).lookup id = if id ∈ c.labels then some (c.labelNumber id) else none := by
  have h := labelNumbers_eq 1 c.listing
  rw [Nat.cast_one] at h
  rw [h]
  exact lookup_zipIdx (fun k => (k : Int)) c.labels 1 id

theorem get_labelNumbers {id : InsnId} (h : id ∈ c.labels) :
    (labelNumbers 1 c.listing).get id = .ok (c.labelNumber id) := by
  rw [LabelNumbers.get, lookup_labelNumbers, if_pos h]

theorem Code.labelNumber_ne_zero (c : Code) (id : InsnId) : c.labelNumber id ≠ 0 := by
  unfold labelNumber
  omega

theorem Code.labelNumber_inj {p q : InsnId} (hp : p ∈ c.labels) (h : c.labelNumber p = c.labelNumber q) : p = q := by
  have h : c.labels.idxOf p = c.labels.idxOf q := by
    unfold labelNumber at h
    omega
  exact (List.idxOf_inj hp).mp h

/-- The labels among records that carry different numbers, none of them zero, are found under their numbers. -/
theorem MethodRecord.collectLabels_written (number : InsnId → Int) (lines : List (InsnId × Insn)) (i : Nat)
    (ls : LabelIds) (hformed : ∀ p ∈ lines, p.2.Formed)
    (hnodup : (((lines.filter fun p => p.2.isLabel).map Prod.fst).map number).Nodup)
    (hnew : ∀ p ∈ lines, p.2.isLabel = true → number p.1 ≠ 0 ∧ ls.lookup (number p.1) = none) :
    ∃ ids, collectLabels i (lines.map fun p => InsnRecord.written number p.1 p.2) ls = .ok ids ∧
      (∀ k p, lines[k]? = some p → p.2.isLabel = true → ids.lookup (number p.1) = some ((i + k : Nat) : Int)) ∧
      ∀ n, (∀ p ∈ lines, p.2.isLabel = true → number p.1 ≠ n) → ids.lookup n = ls.lookup n := by
  induction lines generalizing i ls with
  | nil => exact ⟨ls, rfl, by simp, by simp⟩
  | cons p lines ih =>
    have hx := hformed p (by simp)
    rw [List.map_cons, collectLabels, InsnRecord.isLabel_written hx]
    by_cases hlabel : p.2.isLabel = true
    · obtain ⟨hne, hfree⟩ := hnew p (by simp) hlabel
      have hnumber : (InsnRecord.written number p.1 p.2).label = number p.1 := by
        rw [Insn.eq_label_of_isLabel hlabel]
        rfl
      simp only [List.filter_cons, hlabel, if_true, List.map_cons, List.nodup_cons] at hnodup
      have hother : ∀ q ∈ lines, q.2.isLabel = true → number q.1 ≠ number p.1 := by
        intro q hq hqlabel heq
        refine hnodup.1 (List.mem_map.mpr ⟨q.1, List.mem_map.mpr ⟨q, ?_, rfl⟩, heq⟩)
        exact List.mem_filter.mpr ⟨hq, hqlabel⟩
      obtain ⟨ids, hids, hfound, hrest⟩ := ih (i + 1) ((number p.1, (i : Int)) :: ls)
        (fun q hq => hformed q (by simp [hq])) hnodup.2 fun q hq hqlabel => by
          obtain ⟨hq0, hqfree⟩ := hnew q (by simp [hq]) hqlabel
          refine ⟨hq0, ?_⟩
          rw [List.lookup_cons, beq_false_of_ne (hother q hq hqlabel)]
          exact hqfree
      refine ⟨ids, ?_, ?_, ?_⟩
      · rw [if_pos hlabel, hnumber, if_neg (by simp [hne, hfree]), hids]
      · intro k q hk hqlabel
        cases k with
        | zero =>
          obtain rfl : p = q := by simpa using hk
          rw [hrest _ hother, List.lookup_cons, beq_self_eq_true]
          rfl
        | succ k =>
          rw [hfound k q (by simpa using hk) hqlabel, show i + 1 + k = i + (k + 1) by omega]
      · intro n hn
        rw [hrest n fun q hq => hn q (by simp [hq]), List.lookup_cons, beq_false_of_ne (hn p (by simp) hlabel).symm]
    · have hlabel : p.2.isLabel = false := by simpa using hlabel
      simp only [List.filter_cons, hlabel, Bool.false_eq_true, if_false] at hnodup
      obtain ⟨ids, hids, hfound, hrest⟩ := ih (i + 1) ls (fun q hq => hformed q (by simp [hq])) hnodup
        fun q hq => hnew q (by simp [hq])
      refine ⟨ids, by simp [hlabel, hids], ?_, ?_⟩
      · intro k q hk hqlabel
        cases k with
        | zero =>
          obtain rfl : p = q := by simpa using hk
          simp [hlabel] at hqlabel
        | succ k =>
          rw [hfound k q (by simpa using hk) hqlabel, show i + 1 + k = i + (k + 1) by omega]
      · intro n hn
        exact hrest n fun q hq => hn q (by simp [hq])

/-- The labels that are collected from records are the positions of records of labels. -/
theorem MethodRecord.mem_collectLabels {rs : List InsnRecord} {i : Nat} {ls ids : LabelIds}
    (h : collectLabels i rs ls = .ok ids) {n : Int} {id : InsnId} (hid : ids.lookup n = some id) :
    ls.lookup n = some id ∨ ∃ k r, rs[k]? = some r ∧ r.isLabel = true ∧ id = ((i + k : Nat) : Int) := by
  induction rs generalizing i ls with
  | nil =>
    obtain rfl := Except.ok.inj h
    exact .inl hid
  | cons r rs ih =>
    have hshift : ∀ {k : Nat}, ((i + 1 + k : Nat) : Int) = ((i + (k + 1) : Nat) : Int) := by omega
    rw [collectLabels] at h
    split at h
    · next hlabel =>
      split at h
      · cases h
      · rcases ih h with hls | ⟨k, q, hk, hq, rfl⟩
        · rw [List.lookup_cons] at hls
          split at hls
          · exact .inr ⟨0, r, rfl, hlabel, (Option.some.inj hls).symm⟩
          · exact .inl hls
        · exact .inr ⟨k + 1, q, hk, hq, hshift⟩
    · rcases ih h with hls | ⟨k, q, hk, hq, rfl⟩
      · exact .inl hls
      · exact .inr ⟨k + 1, q, hk, hq, hshift⟩

/-! ## Records of methods -/

/-- The record of a variable, where `number` gives the numbers of labels. -/
def LocalRecord.written (number : InsnId → Int) (l : LocalVar) : LocalRecord :=
  ⟨l.name, l.desc, l.signature, l.slot, number l.start, number l.stop⟩

/-- The record of a handler, where `number` gives the numbers of labels. -/
def HandlerRecord.written (number : InsnId → Int) (h : Handler) : HandlerRecord :=
  ⟨h.type, number h.start, number h.stop, number h.handler⟩

/-- The record of a method. -/
def MethodRecord.written (m : Method) : MethodRecord where
  name := m.name
  desc := m.desc
  access := m.access.names
  maxStack := m.maxStack
  maxLocals := m.maxLocals
  code := m.code.listing.map fun p => .written m.code.labelNumber p.1 p.2
  locals := m.locals.map (.written m.code.labelNumber)
  handlers := m.handlers.map (.written m.code.labelNumber)

/-- The variable that a record describes, among labels of a code. -/
structure LocalRecord.Describes (ids : LabelIds) (r : LocalRecord) (l : LocalVar) : Prop where
  start : ids.get r.start = .ok l.start
  stop : ids.get r.stop = .ok l.stop
  rest : l = ⟨r.name, r.desc, r.signature, r.slot, l.start, l.stop⟩

/-- The handler that a record describes, among labels of a code. -/
structure HandlerRecord.Describes (ids : LabelIds) (r : HandlerRecord) (h : Handler) : Prop where
  start : ids.get r.start = .ok h.start
  stop : ids.get r.stop = .ok h.stop
  handler : ids.get r.handler = .ok h.handler
  type : h.type = r.type

/-- The instruction that a record describes, among labels of a code. -/
def InsnRecord.Describes (ids : LabelIds) (r : InsnRecord) (x : Insn) : Prop :=
  (if r.isLabel then .ok .label else r.toInsn ids) = .ok x

/-- The method that a record describes, whose labels are the given ones. -/
structure MethodRecord.Describes (r : MethodRecord) (ids : LabelIds) (m : Method) : Prop where
  type : ∃ t, MethodType.parse r.desc = .ok t
  access : Access.ofNames? r.access = some m.access
  labels : collectLabels 0 r.code [] = .ok ids
  code : ∃ xs, m.code = .ofList xs ∧ List.Forall₂ (InsnRecord.Describes ids) r.code xs
  locals : List.Forall₂ (LocalRecord.Describes ids) r.locals m.locals
  handlers : List.Forall₂ (HandlerRecord.Describes ids) r.handlers m.handlers
  rest : m = ⟨r.name, r.desc, m.access, m.code, m.locals, m.handlers, r.maxStack, r.maxLocals⟩

namespace MethodRecord

/-- Records are read as what they describe. -/
theorem toInsns_ok_iff {ids : LabelIds} {i : Nat} {rs : List InsnRecord} {xs : List Insn} :
    toInsns ids i rs = .ok xs ↔ List.Forall₂ (InsnRecord.Describes ids) rs xs := by
  induction rs generalizing i xs with
  | nil => simp [toInsns, eq_comm]
  | cons r rs ih =>
    have hline : toInsns ids i (r :: rs) =
        ((if r.isLabel then .ok .label else inPart (Text.concat ["code ", Text.ofNat i]) (r.toInsn ids)) >>= fun x =>
          toInsns ids (i + 1) rs >>= fun xs => pure (x :: xs)) := by
      rw [toInsns]
      split <;> rfl
    have hinsn : ∀ x, (if r.isLabel then .ok .label
        else inPart (Text.concat ["code ", Text.ofNat i]) (r.toInsn ids)) = .ok x ↔ r.Describes ids x := by
      intro x
      rw [InsnRecord.Describes]
      split
      · rfl
      · exact inPart_eq_ok
    rw [hline]
    simp only [except_bind_ok, hinsn, ih, List.forall₂_cons_left_iff]
    constructor
    · rintro ⟨x, hx, ys, hys, h⟩
      exact ⟨x, ys, hx, hys, (Except.ok.inj h).symm⟩
    · rintro ⟨x, ys, hx, hys, rfl⟩
      exact ⟨x, hx, ys, hys, rfl⟩

theorem toHandlers_ok_iff {ids : LabelIds} {i : Nat} {rs : List HandlerRecord} {hs : List Handler} :
    toHandlers ids i rs = .ok hs ↔ List.Forall₂ (HandlerRecord.Describes ids) rs hs := by
  induction rs generalizing i hs with
  | nil => simp [toHandlers, eq_comm]
  | cons r rs ih =>
    simp only [toHandlers, except_bind_ok, inPart_eq_ok, ih, List.forall₂_cons_left_iff]
    constructor
    · rintro ⟨x, ⟨start, hstart, stop, hstop, handler, hhandler, hx⟩, ys, hys, h⟩
      obtain rfl := Except.ok.inj hx
      exact ⟨_, ys, ⟨hstart, hstop, hhandler, rfl⟩, hys, (Except.ok.inj h).symm⟩
    · rintro ⟨⟨_, start, stop, handler⟩, ys, ⟨hstart, hstop, hhandler, rfl⟩, hys, rfl⟩
      exact ⟨_, ⟨start, hstart, stop, hstop, handler, hhandler, rfl⟩, ys, hys, rfl⟩

theorem toAccess_ok_iff {fs : List Text} {a : Access} : toAccess fs = .ok a ↔ Access.ofNames? fs = some a := by
  apply Access.ok_iff_ofNames?
  · rfl
  · intro n rest hn
    exact ⟨_, by rw [toAccess, hn]⟩
  · intro n rest b hn
    rw [toAccess, hn]

/-- Reading a record succeeds with the method that the record describes. -/
theorem toMethod_ok_iff {r : MethodRecord} {m : Method} : r.toMethod = .ok m ↔ ∃ ids, r.Describes ids m := by
  have hlocal : ∀ ids (l : LocalRecord) (x : LocalVar),
      (inPart (Text.concat ["local ", l.name]) do
        let start ← LabelIds.get ids l.start
        let stop ← LabelIds.get ids l.stop
        return (⟨l.name, l.desc, l.signature, l.slot, start, stop⟩ : LocalVar)) = .ok x ↔ l.Describes ids x := by
    intro ids l x
    simp only [inPart_eq_ok, except_bind_ok]
    constructor
    · rintro ⟨start, hstart, stop, hstop, h⟩
      obtain rfl := Except.ok.inj h
      exact ⟨hstart, hstop, rfl⟩
    · rintro ⟨hstart, hstop, hx⟩
      exact ⟨_, hstart, _, hstop, congrArg _ hx.symm⟩
  unfold toMethod
  cases htype : MethodType.parse r.desc with
  | error e =>
    constructor
    · intro h
      cases h
    · rintro ⟨ids, hr⟩
      obtain ⟨t, ht⟩ := hr.type
      rw [ht] at htype
      cases htype
  | ok t =>
    simp only [except_bind_ok, toAccess_ok_iff, toInsns_ok_iff, toHandlers_ok_iff, mapM_ok_iff, hlocal]
    constructor
    · rintro ⟨access, haccess, ids, hids, xs, hxs, locals, hlocals, handlers, hhandlers, h⟩
      obtain rfl := Except.ok.inj h
      exact ⟨ids, ⟨t, htype⟩, haccess, hids, ⟨xs, rfl, hxs⟩, hlocals, hhandlers, rfl⟩
    · rintro ⟨ids, -, haccess, hids, ⟨xs, hcode, hxs⟩, hlocals, hhandlers, hm⟩
      refine ⟨_, haccess, ids, hids, xs, hxs, _, hlocals, _, hhandlers, ?_⟩
      rw [← hcode]
      exact congrArg _ hm.symm

end MethodRecord

theorem LocalRecord.ofLocal_eq {l : LocalVar} (h : l.start ∈ c.labels ∧ l.stop ∈ c.labels) :
    ofLocal (labelNumbers 1 c.listing) l = .ok (.written c.labelNumber l) := by
  rw [ofLocal, get_labelNumbers h.1, get_labelNumbers h.2]
  rfl

theorem HandlerRecord.ofHandlers_eq {hs : List Handler} (i : Nat)
    (h : ∀ x ∈ hs, x.start ∈ c.labels ∧ x.stop ∈ c.labels ∧ x.handler ∈ c.labels) :
    ofHandlers (labelNumbers 1 c.listing) i hs = .ok (hs.map (.written c.labelNumber)) := by
  induction hs generalizing i with
  | nil => rfl
  | cons x hs ih =>
    obtain ⟨hstart, hstop, hhandler⟩ := h x (by simp)
    rw [ofHandlers, get_labelNumbers hstart, get_labelNumbers hstop, get_labelNumbers hhandler,
      ih (i + 1) fun y hy => h y (by simp [hy])]
    rfl

namespace MethodRecord

variable {m : Method}

/-- A method whose references are labels has its record, if its instructions have. -/
theorem ofMethod_eq (hm : m.Anchored) (hrecord : ∀ p ∈ m.code.listing, p.2.isRecordable = true) :
    ofMethod m = .ok (written m) := by
  obtain ⟨htargets, hlocals, hhandlers⟩ := Method.anchored_iff.mp hm
  have hcode : (m.code.listing.mapM fun p => inPart (Text.concat ["insn ", Text.ofInt p.1])
      (InsnRecord.ofInsn (labelNumbers 1 m.code.listing) p.1 p.2)) = .ok (written m).code := by
    apply mapM_eq_ok
    intro p hp
    rw [inPart_eq_ok]
    apply InsnRecord.ofInsn_eq (hrecord p hp)
    · intro hlabel
      have hmem : p.1 ∈ m.code.labels := Code.mem_labels.mpr (by rwa [← Insn.eq_label_of_isLabel hlabel])
      rw [lookup_labelNumbers, if_pos hmem]
    · intro t ht
      exact get_labelNumbers (htargets p hp t ht)
  unfold ofMethod
  dsimp only
  rw [hcode, mapM_eq_ok fun l hl => LocalRecord.ofLocal_eq (hlocals l hl), HandlerRecord.ofHandlers_eq 0 hhandlers]
  rfl

/-- A method whose references are labels has a record iff all its instructions have. -/
theorem ofMethod_ok_iff (hm : m.Anchored) :
    (∃ r, ofMethod m = .ok r) ↔ ∀ p ∈ m.code.listing, p.2.isRecordable = true := by
  constructor
  · rintro ⟨r, h⟩ p hp
    unfold ofMethod at h
    obtain ⟨code, hcode, -⟩ := except_bind_ok.mp h
    obtain ⟨x, -, hx⟩ := forall₂_mem_left (mapM_ok_iff.mp hcode) hp
    exact InsnRecord.isRecordable_of_ofInsn (inPart_eq_ok.mp hx)
  · intro h
    exact ⟨_, ofMethod_eq hm h⟩

end MethodRecord

/-! ## Renumbering -/

namespace Code

/-- The code whose ids are the positions of its instructions. -/
def renumber (c : Code) : Code := .ofList (c.listing.map fun p => p.2.redirect c.place)

end Code

/-- The method with its instructions numbered by position. -/
def Method.renumber (m : Method) : Method :=
  { m with
    code := m.code.renumber
    locals := m.locals.map fun l => { l with start := m.code.place l.start, stop := m.code.place l.stop }
    handlers := m.handlers.map fun h =>
      { h with start := m.code.place h.start, stop := m.code.place h.stop, handler := m.code.place h.handler } }

/-- The class with the instructions of its methods numbered by position. -/
def ClassModel.renumber (c : ClassModel) : ClassModel := { c with methods := c.methods.map Method.renumber }

/-- A method of which a record keeps everything but the ids of the instructions. -/
structure Method.Recordable (m : Method) : Prop where
  linked : m.code.WellLinked
  anchored : m.Anchored
  formed : ∀ p ∈ m.code.listing, p.2.Formed
  access : m.access.Named
  type : ∃ t, MethodType.parse m.desc = .ok t

theorem Insn.Formed.isRecordable {x : Insn} (h : x.Formed) : x.isRecordable = true := by
  cases x with
  | ldc c => exact (h.const c rfl).1
  | _ => rfl

namespace Code

variable {c : Code}

theorem WellLinked.labels_nodup (h : c.WellLinked) : c.labels.Nodup :=
  (List.filter_sublist.map Prod.fst).nodup h.nodup

/-- The place of a line is its position. -/
theorem WellLinked.place_eq (h : c.WellLinked) {k : Nat} {p : InsnId × Insn} (hk : c.listing[k]? = some p) :
    c.place p.1 = (k : Int) := by
  obtain ⟨hlt, hp⟩ := List.getElem?_eq_some_iff.mp hk
  have hlt' : k < (c.listing.map Prod.fst).length := by simpa using hlt
  have hid : (c.listing.map Prod.fst)[k] = p.1 := by simp [hp]
  unfold place
  rw [h.ids_eq, ← hid, h.nodup.idxOf_getElem]

end Code

namespace MethodRecord

variable {m : Method}

/-- The labels that are collected from the record of a method are at the places of its labels. -/
theorem exists_labels (hm : m.Recordable) :
    ∃ ids, collectLabels 0 (written m).code [] = .ok ids ∧
      ∀ q ∈ m.code.labels, LabelIds.get ids (m.code.labelNumber q) = .ok (m.code.place q) := by
  have hnumbers : (m.code.labels.map m.code.labelNumber).Nodup :=
    hm.linked.labels_nodup.map_on fun p hp q _ h => Code.labelNumber_inj hp h
  obtain ⟨ids, hcollect, hfound, -⟩ := collectLabels_written m.code.labelNumber m.code.listing 0 [] hm.formed
    hnumbers fun p _ _ => ⟨m.code.labelNumber_ne_zero p.1, rfl⟩
  refine ⟨ids, hcollect, ?_⟩
  intro q hq
  obtain ⟨k, hk⟩ := List.getElem?_of_mem (Code.mem_labels.mp hq)
  rw [LabelIds.get, hfound k _ hk rfl, hm.linked.place_eq hk, Nat.zero_add]

/-- The record of a method describes the method numbered by position. -/
theorem toMethod_written (hm : m.Recordable) : (written m).toMethod = .ok m.renumber := by
  obtain ⟨htargets, hlocals, hhandlers⟩ := Method.anchored_iff.mp hm.anchored
  obtain ⟨ids, hids, hget⟩ := exists_labels hm
  apply toMethod_ok_iff.mpr
  refine ⟨ids, ?_⟩
  constructor
  case type => exact hm.type
  case access => exact Access.ofNames?_names hm.access
  case labels => exact hids
  case code =>
    refine ⟨_, rfl, ?_⟩
    rw [written, List.forall₂_map_left_iff, List.forall₂_map_right_iff, List.forall₂_same]
    intro p hp
    have hx := hm.formed p hp
    unfold InsnRecord.Describes
    rw [InsnRecord.isLabel_written hx]
    split
    · next hlabel => rw [Insn.eq_label_of_isLabel hlabel]; rfl
    · next hlabel =>
      apply InsnRecord.toInsn_written hx (by simpa using hlabel)
      intro t ht
      exact ⟨m.code.labelNumber_ne_zero t, hget t (htargets p hp t ht)⟩
  case locals =>
    rw [written, Method.renumber, List.forall₂_map_left_iff, List.forall₂_map_right_iff, List.forall₂_same]
    intro l hl
    exact ⟨hget _ (hlocals l hl).1, hget _ (hlocals l hl).2, rfl⟩
  case handlers =>
    rw [written, Method.renumber, List.forall₂_map_left_iff, List.forall₂_map_right_iff, List.forall₂_same]
    intro h hh
    obtain ⟨hstart, hstop, hhandler⟩ := hhandlers h hh
    exact ⟨hget _ hstart, hget _ hstop, hget _ hhandler, rfl⟩
  case rest => rfl

end MethodRecord

/-! ## Methods that are numbered by position -/

theorem Insn.redirect_eq_self {place : InsnId → InsnId} {x : Insn} (h : ∀ t ∈ x.targets, place t = t) :
    x.redirect place = x := by
  cases x with
  | jump op t => rw [redirect, h t (by simp [targets])]
  | switch op keys otherwise ts =>
    have hts : ts.map place = ts := by
      rw [List.map_congr_left fun t ht => h t (by simp [targets, ht]), List.map_id']
    rw [redirect, h otherwise (by simp [targets]), hts]
  | _ => rfl

namespace Code

theorem getElem?_listing_ofList (xs : List Insn) (k : Nat) :
    (ofList xs).listing[k]? = xs[k]?.map fun x => ((k : Int), x) := by
  rw [(holds_ofList xs).listing_eq]
  unfold numbered
  cases h : xs[k]? <;> simp [h]

theorem mem_listing_ofList {xs : List Insn} {p : InsnId × Insn} :
    p ∈ (ofList xs).listing ↔ ∃ k : Nat, xs[k]? = some p.2 ∧ p.1 = (k : Int) := by
  rw [List.mem_iff_getElem?]
  constructor
  · rintro ⟨k, hk⟩
    rw [getElem?_listing_ofList, Option.map_eq_some_iff] at hk
    obtain ⟨x, hx, rfl⟩ := hk
    exact ⟨k, hx, rfl⟩
  · rintro ⟨k, hk, hid⟩
    refine ⟨k, ?_⟩
    rw [getElem?_listing_ofList, hk, Option.map_some, ← hid]

/-- The ids of instructions put in one after the other are their positions. -/
theorem place_ofList {xs : List Insn} {p : InsnId × Insn} (hp : p ∈ (ofList xs).listing) :
    (ofList xs).place p.1 = p.1 := by
  obtain ⟨k, hk, hid⟩ := mem_listing_ofList.mp hp
  rw [hid]
  apply (holds_ofList xs).wellLinked.place_eq (p := ((k : Int), p.2))
  rw [getElem?_listing_ofList, hk, Option.map_some]

end Code

namespace Method

/-- The instructions of the method were put in one after the other, and are numbered by position. -/
def Ordered (m : Method) : Prop := ∃ xs, m.code = .ofList xs

theorem Ordered.wellLinked {m : Method} (h : m.Ordered) : m.code.WellLinked := by
  obtain ⟨xs, hcode⟩ := h
  rw [hcode]
  exact (Code.holds_ofList xs).wellLinked

/-- A method that is numbered by position stays as it is. -/
theorem renumber_eq_self {m : Method} (hm : m.Anchored) (hordered : m.Ordered) : m.renumber = m := by
  obtain ⟨htargets, hlocals, hhandlers⟩ := anchored_iff.mp hm
  obtain ⟨xs, hcode⟩ := hordered
  have hplace : ∀ q ∈ m.code.labels, m.code.place q = q := by
    intro q hq
    rw [hcode] at hq ⊢
    exact Code.place_ofList (Code.mem_labels.mp hq)
  have hlines : m.code.renumber = m.code := by
    have hredirect : m.code.listing.map (fun p => p.2.redirect m.code.place) = m.code.listing.map Prod.snd :=
      List.map_congr_left fun p hp => Insn.redirect_eq_self fun t ht => hplace t (htargets p hp t ht)
    rw [Code.renumber, hredirect, hcode, (Code.holds_ofList xs).listing_eq, Code.map_snd_numbered]
  have hvars : m.locals.map (fun l => { l with start := m.code.place l.start, stop := m.code.place l.stop }) =
      m.locals := by
    rw [List.map_congr_left (g := id) fun l hl => ?_, List.map_id]
    rw [hplace _ (hlocals l hl).1, hplace _ (hlocals l hl).2]
    rfl
  have hcatch : m.handlers.map (fun h => { h with
      start := m.code.place h.start, stop := m.code.place h.stop, handler := m.code.place h.handler }) =
      m.handlers := by
    rw [List.map_congr_left (g := id) fun h hh => ?_, List.map_id]
    obtain ⟨hstart, hstop, hhandler⟩ := hhandlers h hh
    rw [hplace _ hstart, hplace _ hstop, hplace _ hhandler]
    rfl
  unfold renumber
  rw [hlines, hvars, hcatch]

end Method

/-- The method of a record can be put on record, and is numbered by position. -/
theorem MethodRecord.recordable_of_toMethod {r : MethodRecord} {m : Method} (h : r.toMethod = .ok m) :
    m.Recordable ∧ m.Ordered := by
  obtain ⟨ids, hr⟩ := toMethod_ok_iff.mp h
  obtain ⟨xs, hcode, hxs⟩ := hr.code
  have hlabel : ∀ n q, LabelIds.get ids n = .ok q → q ∈ m.code.labels := by
    intro n q hq
    have hlookup : ids.lookup n = some q := by
      unfold LabelIds.get at hq
      split at hq <;> simp_all
    rcases mem_collectLabels hr.labels hlookup with hnone | ⟨k, line, hk, hline, hid⟩
    · simp at hnone
    · obtain ⟨x, hx, hdescribes⟩ := forall₂_getElem? hxs hk
      rw [InsnRecord.Describes, if_pos hline] at hdescribes
      obtain rfl := Except.ok.inj hdescribes
      rw [Nat.zero_add] at hid
      rw [Code.mem_labels, hcode]
      exact Code.mem_listing_ofList.mpr ⟨k, hx, hid⟩
  have hlines : ∀ p ∈ m.code.listing, p.2.Formed ∧ ∀ t ∈ p.2.targets, t ∈ m.code.labels := by
    intro p hp
    rw [hcode] at hp
    obtain ⟨k, hk, -⟩ := Code.mem_listing_ofList.mp hp
    obtain ⟨line, -, hdescribes⟩ := forall₂_mem_right hxs (List.mem_of_getElem? hk)
    unfold InsnRecord.Describes at hdescribes
    split at hdescribes
    · rw [← Except.ok.inj hdescribes]
      exact ⟨⟨by decide, rfl, by simp⟩, by simp [Insn.targets]⟩
    · next hline =>
      obtain ⟨hformed, -, htargets⟩ := InsnRecord.formed_of_toInsn (by simpa using hline) hdescribes
      refine ⟨hformed, ?_⟩
      intro t ht
      obtain ⟨n, hn⟩ := htargets t ht
      exact hlabel n t hn
  refine ⟨⟨?_, ?_, fun p hp => (hlines p hp).1, ?_, ?_⟩, xs, hcode⟩
  · rw [hcode]
    exact (Code.holds_ofList xs).wellLinked
  · apply Method.anchored_iff.mpr
    refine ⟨fun p hp => (hlines p hp).2, ?_, ?_⟩
    · intro l hl
      obtain ⟨line, -, hline⟩ := forall₂_mem_right hr.locals hl
      exact ⟨hlabel _ _ hline.start, hlabel _ _ hline.stop⟩
    · intro x hx
      obtain ⟨line, -, hline⟩ := forall₂_mem_right hr.handlers hx
      exact ⟨hlabel _ _ hline.start, hlabel _ _ hline.stop, hlabel _ _ hline.handler⟩
  · exact Access.named_of_ofNames? hr.access
  · rw [hr.rest]
    exact hr.type

/-! ## Classes -/

/-- A class of which a record keeps everything but the ids of the instructions. -/
def ClassModel.Recordable (c : ClassModel) : Prop := ∀ m ∈ c.methods, m.Recordable

namespace ClassRecord

/-- A class whose methods can be put on record has a record, which describes the class numbered by position. -/
theorem toClass_ofClass {c : ClassModel} (hc : c.Recordable) :
    ∃ r, ofClass c = .ok r ∧ r.toClass = .ok c.renumber := by
  refine ⟨⟨c.name, c.parent, c.methods.map .written⟩, ?_, ?_⟩
  · unfold ofClass
    rw [mapM_eq_ok fun m hm => inPart_eq_ok.mpr
      (MethodRecord.ofMethod_eq (hc m hm).anchored fun p hp => ((hc m hm).formed p hp).isRecordable)]
    rfl
  · have hmethods : ((c.methods.map MethodRecord.written).mapM fun r =>
        inPart (Text.concat ["method ", r.name, r.desc]) r.toMethod) = .ok (c.methods.map Method.renumber) := by
      rw [List.mapM_map]
      exact mapM_eq_ok fun m hm => inPart_eq_ok.mpr (MethodRecord.toMethod_written (hc m hm))
    unfold toClass
    rw [hmethods]
    rfl

/-- The class of a record can be put on record, and is numbered by position. -/
theorem recordable_of_toClass {r : ClassRecord} {c : ClassModel} (h : r.toClass = .ok c) :
    c.Recordable ∧ ∀ m ∈ c.methods, m.Ordered := by
  obtain ⟨methods, hmethods, h⟩ := except_bind_ok.mp h
  obtain rfl := Except.ok.inj h
  rw [ClassModel.Recordable, ← forall₂_and]
  intro m hm
  obtain ⟨line, -, hline⟩ := forall₂_mem_right (mapM_ok_iff.mp hmethods) hm
  exact MethodRecord.recordable_of_toMethod (inPart_eq_ok.mp hline)

end ClassRecord

theorem ClassModel.renumber_eq_self {c : ClassModel} (hc : c.Recordable) (hordered : ∀ m ∈ c.methods, m.Ordered) :
    c.renumber = c := by
  have hmethods : c.methods.map Method.renumber = c.methods :=
    (List.map_congr_left fun m hm => Method.renumber_eq_self (hc m hm).anchored (hordered m hm)).trans (List.map_id _)
  unfold renumber
  rw [hmethods]

end CoordSplit
