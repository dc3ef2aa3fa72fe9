import CoordSplit.Proofs.Descriptors
import CoordSplit.Proofs.FlowResults

/-!
# Calls that the catalog omits

A call of which the catalog says nothing may still take or give packed coordinates, if its descriptor has a long in it.
Such a call is worth a warning, and any other call that the catalog omits is listed as unknown. Two passes over the code
do this, each with a filter of its own, and both look for longs by scanning the bytes of the descriptor.

The scan agrees with the types that the descriptor is read as, since it is back in step behind every class name,
whatever letters the name has (`mentionsLongFrom_desc`). So the two passes share the omitted calls out between them
(`Expansion.Reports`): each gives one warning or one unknown method, and nothing else gives either.
-/

set_option autoImplicit false

namespace CoordSplit

/-! ## Longs in descriptors -/

/-- What an array holds in the end, through all its levels; a type that is no array is its own. -/
def ValueType.innermost : ValueType → ValueType
  | .array elem => elem.innermost
  | t => t

/-- A parameter or the result is a long, or an array of longs of any depth. -/
def MethodType.HasLong (f : MethodType) : Prop := ∃ t ∈ f.result :: f.params, t.innermost = .long

/-- A class name is skipped up to its end, whatever letters it has. -/
theorem mentionsLongFrom_name {name : Text} (h : 59 ∉ name) (rest : Text) :
    mentionsLongFrom true (name ++ 59 :: rest) = mentionsLongFrom false rest := by
  induction name with
  | nil => simp [mentionsLongFrom]
  | cons b name ih =>
    simp only [List.mem_cons, not_or] at h
    rw [List.cons_append, mentionsLongFrom, decide_eq_true (Ne.symm h.1), ih h.2]

/-- The scan of a type finds a long iff the type holds longs in the end, and goes on behind the type. -/
theorem mentionsLongFrom_desc {t : ValueType} (h : t.Writable) (rest : Text) :
    mentionsLongFrom false (t.desc ++ rest) = (decide (t.innermost = .long) || mentionsLongFrom false rest) := by
  induction t with
  | prim p => cases p <;> simp [ValueType.desc, Prim.letter, mentionsLongFrom, ValueType.innermost]
  | object name =>
    have hname := mentionsLongFrom_name h.2 rest
    simp [ValueType.desc, mentionsLongFrom, ValueType.innermost, hname]
  | array elem ih =>
    rw [ValueType.innermost, ← ih h.2]
    simp [ValueType.desc, mentionsLongFrom]
  | top => exact h.elim
  | null => exact h.elim

/-- The scan goes through the parameters one after the other. -/
theorem mentionsLongFrom_params {ps : List ValueType} (h : ∀ t ∈ ps, t.Writable) (rest : Text) :
    mentionsLongFrom false (ps.flatMap ValueType.desc ++ rest) =
      (ps.any (fun t => t.innermost = .long) || mentionsLongFrom false rest) := by
  induction ps with
  | nil => simp
  | cons t ps ih =>
    rw [List.flatMap_cons, List.append_assoc, mentionsLongFrom_desc (h t (by simp)), ih fun u hu => h u (by simp [hu]),
      List.any_cons, Bool.or_assoc]

/-- The scan of a descriptor finds a long iff the method takes or gives longs, or arrays of them. -/
theorem mentionsLong_iff {desc : Text} {f : MethodType} (h : MethodType.parse desc = .ok f) :
    mentionsLong desc = true ↔ f.HasLong := by
  have hf := MethodType.writable_of_parse h
  have hresult := mentionsLongFrom_desc hf.result []
  rw [List.append_nil] at hresult
  have hscan : mentionsLong desc =
      (f.params.any (fun t => t.innermost = .long) || decide (f.result.innermost = .long)) := by
    rw [← MethodType.desc_of_parse h, mentionsLong, MethodType.desc]
    have hparams := mentionsLongFrom_params (fun t ht => (hf.params t ht).1) (41 :: f.result.desc)
    simp [mentionsLongFrom, hparams, hresult]
  rw [hscan, MethodType.HasLong]
  simp only [Bool.or_eq_true, List.any_eq_true, decide_eq_true_eq, List.mem_cons, exists_eq_or_imp]
  exact or_comm

/-! ## Omitted methods -/

/-- The catalog has no entry for the method, which neither takes an axis out of a coordinate nor moves one. -/
structure Catalog.Omits (cat : Catalog) (m : Member) : Prop where
  entry : ∀ e ∈ cat.entries, e.key ≠ m
  unpack : ∀ axis, cat.unpack.get axis ≠ m
  offset : ∀ o, cat.offset = some o → o.method ≠ m

/-- What is not known is omitted. -/
theorem Catalog.knows_eq_false_iff {cat : Catalog} {m : Member} : cat.knows m = false ↔ cat.Omits m := by
  have hunpack : cat.unpackAxis? m = none ↔ ∀ axis, cat.unpack.get axis ≠ m := by
    unfold unpackAxis?
    rw [List.find?_eq_none]
    constructor
    · intro h axis
      have := h axis (by cases axis <;> decide)
      simpa using this
    · intro h axis _
      simpa using h axis
  have hoffset : cat.isOffset m = false ↔ ∀ o, cat.offset = some o → o.method ≠ m := by
    unfold isOffset
    cases cat.offset <;> simp
  have hentry : cat.lookup m = none ↔ ∀ e ∈ cat.entries, e.key ≠ m := by
    unfold lookup
    simp
  rw [knows, Bool.or_eq_false_iff, Bool.or_eq_false_iff, Option.isSome_eq_false_iff, Option.isSome_eq_false_iff,
    Option.isNone_iff_eq_none, Option.isNone_iff_eq_none, hentry, hunpack, hoffset]
  constructor
  · rintro ⟨⟨entry, unpack⟩, offset⟩
    exact ⟨entry, unpack, offset⟩
  · rintro ⟨entry, unpack, offset⟩
    exact ⟨⟨entry, unpack⟩, offset⟩

namespace Expansion

variable {cat : Catalog} {owner : Text} {m : Method} {a : Analysis} {e : Expansion}

/-- The warning about an omitted call. -/
def warning (id : InsnId) (m : Member) : Text :=
  Text.concat ["insn ", Text.ofInt id, ": unknown call ", m.key, " takes or returns long"]

/-- The lines of a code, and the warnings and the unknown methods that they give, in the order of the lines. An omitted
call gives a warning if it takes or gives longs, and else it is unknown. No other line gives anything. -/
inductive Reports (cat : Catalog) : List (InsnId × Insn) → List Text → List Member → Prop
  | nil : Reports cat [] [] []
  | warned {id : InsnId} {op : Opcode} {m : Member} {itf : Bool} {f : MethodType} {lines : List (InsnId × Insn)}
      {ws : List Text} {ks : List Member} (omits : cat.Omits m) (hf : MethodType.parse m.desc = .ok f)
      (long : f.HasLong) (rest : Reports cat lines ws ks) :
      Reports cat ((id, .call op m itf) :: lines) (warning id m :: ws) ks
  | unknown {id : InsnId} {op : Opcode} {m : Member} {itf : Bool} {f : MethodType} {lines : List (InsnId × Insn)}
      {ws : List Text} {ks : List Member} (omits : cat.Omits m) (hf : MethodType.parse m.desc = .ok f)
      (long : ¬ f.HasLong) (rest : Reports cat lines ws ks) :
      Reports cat ((id, .call op m itf) :: lines) ws (m :: ks)
  | known {id : InsnId} {op : Opcode} {m : Member} {itf : Bool} {lines : List (InsnId × Insn)} {ws : List Text}
      {ks : List Member} (known : ¬ cat.Omits m) (rest : Reports cat lines ws ks) :
      Reports cat ((id, .call op m itf) :: lines) ws ks
  | other {id : InsnId} {x : Insn} {lines : List (InsnId × Insn)} {ws : List Text} {ks : List Member}
      (other : ∀ op m itf, x ≠ .call op m itf) (rest : Reports cat lines ws ks) :
      Reports cat ((id, x) :: lines) ws ks

/-! ## The two passes -/

/-- The warning that a line gives. -/
def warning? (cat : Catalog) : InsnId × Insn → Option Text
  | (id, .call _ m _) => if !cat.knows m && mentionsLong m.desc then some (warning id m) else none
  | _ => none

/-- The unknown method that a line gives. -/
def unknown? (cat : Catalog) : InsnId × Insn → Option Member
  | (_, .call _ m _) => if cat.knows m || mentionsLong m.desc then none else some m
  | _ => none

theorem warning?_call (cat : Catalog) (id : InsnId) (op : Opcode) (m : Member) (itf : Bool) :
    warning? cat (id, .call op m itf) =
      if !cat.knows m && mentionsLong m.desc then some (warning id m) else none := rfl

theorem unknown?_call (cat : Catalog) (id : InsnId) (op : Opcode) (m : Member) (itf : Bool) :
    unknown? cat (id, .call op m itf) = if cat.knows m || mentionsLong m.desc then none else some m := rfl

theorem joinArgs_warnings (id : InsnId) (args : List Value) (positions : List Int) (s : Seed) :
    (Seed.joinArgs id args positions s).1.warnings = s.warnings := by
  induction positions generalizing s with
  | nil => rfl
  | cons p rest ih =>
    unfold Seed.joinArgs
    split
    · rfl
    · apply ih

theorem joinSlots_warnings (slots : List Int) (s : Seed) : (Seed.joinSlots slots s).1.warnings = s.warnings := by
  induction slots generalizing s with
  | nil => rfl
  | cons k rest ih =>
    unfold Seed.joinSlots
    split
    · rfl
    · apply ih

/-- A call adds the warning that it gives, also if it is refused. -/
theorem joinCall_warnings (id : InsnId) (op : Opcode) (m : Member) (itf : Bool) (f : Frame) (s : Seed) :
    (Seed.joinCall cat a id op m f s).1.warnings = (warning? cat (id, .call op m itf)).toList ++ s.warnings := by
  rw [warning?_call]
  unfold Seed.joinCall
  split
  · split
    · rfl
    · rfl
  · next entry hentry =>
    have hknown : cat.knows m = true := by simp [Catalog.knows, hentry]
    have hargs := fun args => joinArgs_warnings id args entry.positions s
    rw [hknown]
    split
    · rfl
    · next args _ =>
      split
      · next hjoin =>
        rw [← hargs args, hjoin]
        rfl
      · next hjoin =>
        rw [← hargs args, hjoin]
        split
        · apply joinSlots_warnings
        · rfl

/-- The first pass collects the warnings of its lines, the last one first. -/
theorem joinCalls_warnings {ls : List ((InsnId × Insn) × Frame)} {s : Seed}
    (h : (Seed.joinCalls cat a ls s).2 = .ok ()) :
    (Seed.joinCalls cat a ls s).1.warnings =
      ((ls.map Prod.fst).filterMap (warning? cat)).reverse ++ s.warnings := by
  induction ls generalizing s with
  | nil => rfl
  | cons line ls ih =>
    obtain ⟨⟨id, x⟩, f⟩ := line
    have hlines : (((id, x) :: ls.map Prod.fst).filterMap (warning? cat)).reverse =
        ((ls.map Prod.fst).filterMap (warning? cat)).reverse ++ (warning? cat (id, x)).toList := by
      rw [List.filterMap_cons]
      cases warning? cat (id, x) <;> simp
    rw [List.map_cons, hlines, List.append_assoc]
    cases x with
    | call op m itf =>
      rw [← joinCall_warnings (a := a) id op m itf f s]
      unfold Seed.joinCalls at h ⊢
      split at h
      · cases h
      · next s' hs' =>
        rw [hs']
        exact ih h
    | _ => exact ih h

/-- The lines of the two passes are shared out, if the descriptor of every call can be read. -/
theorem reports_lines {lines : List (InsnId × Insn)}
    (h : ∀ id op m itf, (id, .call op m itf) ∈ lines → ∃ f, MethodType.parse m.desc = .ok f) :
    Reports cat lines (lines.filterMap (warning? cat)) (lines.filterMap (unknown? cat)) := by
  induction lines with
  | nil => exact .nil
  | cons line lines ih =>
    have hrest := ih fun id op m itf hmem => h id op m itf (List.mem_cons_of_mem _ hmem)
    obtain ⟨id, x⟩ := line
    cases x with
    | call op m itf =>
      obtain ⟨f, hf⟩ := h id op m itf List.mem_cons_self
      rw [List.filterMap_cons, List.filterMap_cons, warning?_call, unknown?_call]
      cases hknows : cat.knows m with
      | true =>
        apply Reports.known _ hrest
        rw [← Catalog.knows_eq_false_iff, hknows]
        decide
      | false =>
        have omits := Catalog.knows_eq_false_iff.mp hknows
        cases hlong : mentionsLong m.desc with
        | true => exact .warned omits hf ((mentionsLong_iff hf).mp hlong) hrest
        | false =>
          refine .unknown omits hf (fun hhas => ?_) hrest
          rw [(mentionsLong_iff hf).mpr hhas] at hlong
          cases hlong
    | _ => exact .other (fun _ _ _ heq => by cases heq) hrest

/-- The second pass collects the unknown methods of its lines. -/
theorem unknownCalls_eq (cat : Catalog) (a : Analysis) :
    unknownCalls cat a = (a.reachable.map Prod.fst).filterMap (unknown? cat) := by
  unfold unknownCalls
  rw [List.filterMap_map]
  apply List.filterMap_congr
  rintro ⟨⟨id, x⟩, f⟩ -
  cases x <;> rfl

/-- The descriptor of a reachable call can be read. -/
theorem parse_of_reachable (ha : Analysis.ofMethod owner m = .ok a) {id : InsnId} {op : Opcode} {callee : Member}
    {itf : Bool} (h : (id, .call op callee itf) ∈ a.reachable.map Prod.fst) :
    ∃ f, MethodType.parse callee.desc = .ok f := by
  obtain ⟨⟨line, f⟩, hmem, rfl⟩ := List.mem_map.mp h
  obtain ⟨-, r, hr⟩ := Analysis.step_of_mem_reachable ha hmem
  obtain ⟨t, -, ht, -⟩ := step_call_ok hr
  exact ⟨t, ht⟩

/-- The scan of a descriptor that can be read finds a long iff a parameter or the result is a long or an array of longs.
For an analysed method with an expansion set, the reachable lines, which stand in the order of the code, give the
warnings and the unknown methods of the set: each omitted call gives one or the other, and no other line gives any. -/
theorem solve_reports :
    (∀ (desc : Text) (f : MethodType), MethodType.parse desc = .ok f → (mentionsLong desc = true ↔ f.HasLong)) ∧
    ∀ (owner : Text) (m : Method) (a : Analysis) (cat : Catalog) (e : Expansion), Analysis.ofMethod owner m = .ok a →
      solve cat a = .ok e → (a.reachable.map Prod.fst).Sublist m.code.listing ∧
        Reports cat (a.reachable.map Prod.fst) e.warnings e.unknown := by
  refine ⟨fun _ _ => mentionsLong_iff, fun owner m a cat e ha h => ⟨Analysis.reachable_sublist ha, ?_⟩⟩
  have hsolved := solve_ok h
  have hwarnings : e.warnings = (a.reachable.map Prod.fst).filterMap (warning? cat) := by
    have hseed := hsolved.seeded
    rw [hsolved.warnings]
    unfold Seed.ofAnalysis at hseed ⊢
    rw [joinCalls_warnings hseed, List.append_nil, List.reverse_reverse]
  rw [hwarnings, hsolved.unknown, unknownCalls_eq]
  exact reports_lines fun _ _ _ _ => parse_of_reachable ha

/-- A method that passes its parameter to the entry and takes an axis out of it. Between these it calls a method that
takes arrays of longs and one that takes an object of the class `J`, and behind its end there is another such call. -/
def passing : Method :=
  ⟨"m", "(J)V", ⟨8⟩, .ofList [.var .lload 0, .call .invokestatic ⟨"Q", "g", "(J)V"⟩ false, .plain .aconstNull,
    .call .invokestatic ⟨"S", "f", "([[J)V"⟩ false, .plain .aconstNull, .call .invokestatic ⟨"S", "f", "(LJ;)V"⟩ false,
    .var .lload 0, .call .invokestatic ⟨"P", "x", "(J)I"⟩ false, .plain .pop, .plain .returnVoid,
    .call .invokestatic ⟨"S", "f", "([[J)V"⟩ false, .plain .returnVoid], [], [], 2, 2⟩

/-- Only the arrays are warned about, and only the class with the name of a long is unknown. -/
theorem solve_reports_passing : ∃ a e, Analysis.ofMethod "C" passing = .ok a ∧ solve .oneEntry a = .ok e ∧
    e.warnings = [("insn 3: unknown call S#f ([[J)V takes or returns long" : Text)] ∧
    e.unknown = [⟨"S", "f", "(LJ;)V"⟩] ∧ Reports .oneEntry (a.reachable.map Prod.fst) e.warnings e.unknown := by
  have hsolve : ((Analysis.ofMethod "C" passing).toOption.bind fun a => (solve .oneEntry a).toOption.map fun e =>
      (e.warnings, e.unknown)) =
      some ([("insn 3: unknown call S#f ([[J)V takes or returns long" : Text)], [⟨"S", "f", "(LJ;)V"⟩]) := by
    decide +kernel
  obtain ⟨a, ha, hsolve⟩ := except_ok_of_bind hsolve
  obtain ⟨e, he, hsolve⟩ := except_ok_of_map hsolve
  obtain ⟨hwarnings, hunknown⟩ := Prod.mk.inj hsolve
  exact ⟨a, e, ha, he, hwarnings, hunknown, (solve_reports.2 "C" passing a .oneEntry e ha he).2⟩

end Expansion

end CoordSplit
