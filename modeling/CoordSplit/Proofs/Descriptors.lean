import CoordSplit.Descriptor.Parser
import Mathlib.Tactic

/-!
# Descriptors are read back

The types that a descriptor can write are exactly those that reading one gives (`ValueType.Writable`), and
reading the descriptor of such a type, whatever follows it, gives the type back. Method types are read
back in the same way, which is what makes the layout of a changed descriptor that of the changed type.
-/

set_option autoImplicit false

namespace CoordSplit

namespace Text

/-- A text is cut at the first separator. -/
theorem cut_eq_some_iff {sep : UInt8} {t a b : Text} :
    cut sep t = some (a, b) ↔ sep ∉ a ∧ t = a ++ sep :: b := by
  induction t generalizing a with
  | nil => simp [cut]
  | cons c rest ih =>
    rw [cut]
    by_cases hc : c = sep
    · rw [if_pos hc]
      cases a with
      | nil => simp [hc]
      | cons d a =>
        simp only [Option.some.injEq, Prod.mk.injEq, List.nil_eq, reduceCtorEq, false_and, List.mem_cons,
          not_or, List.cons_append, List.cons.injEq, false_iff, not_and]
        rintro ⟨hne, -⟩ rfl
        exact absurd hc.symm hne
    · rw [if_neg hc, Option.map_eq_some_iff]
      cases a with
      | nil => simp [hc]
      | cons d a =>
        simp only [Prod.exists, Prod.mk.injEq, List.cons.injEq, List.mem_cons, not_or, List.cons_append]
        constructor
        · rintro ⟨a', b', hcut, ⟨rfl, rfl⟩, rfl⟩
          obtain ⟨hmem, hrest⟩ := ih.mp hcut
          exact ⟨⟨fun h => hc h.symm, hmem⟩, rfl, hrest⟩
        · rintro ⟨⟨-, hmem⟩, rfl, hrest⟩
          exact ⟨a, b, ih.mpr ⟨hmem, hrest⟩, ⟨rfl, rfl⟩, rfl⟩

end Text

namespace Prim

theorem ofLetter?_letter (p : Prim) : ofLetter? p.letter = some p := by
  cases p <;> decide

theorem letter_of_ofLetter? {b : UInt8} {p : Prim} (h : ofLetter? b = some p) : b = p.letter := by
  have := List.find?_some h
  simpa using (of_decide_eq_true this).symm

end Prim

namespace ValueType

/-- The types that a descriptor can write. -/
def Writable : ValueType → Prop
  | .prim _ => True
  | .object name => name ≠ [] ∧ 59 ∉ name
  | .array elem => elem ≠ .void ∧ elem.Writable
  | .top | .null => False

/-- Reading gives a type that can be written, and takes just its descriptor. -/
theorem read_sound {t tail : Text} {v : ValueType} (h : read t = .ok (v, tail)) :
    v.Writable ∧ t = v.desc ++ tail := by
  induction t generalizing v tail with
  | nil => simp [read] at h
  | cons c rest ih =>
    rw [read] at h
    split at h
    · next p hp =>
      obtain ⟨rfl, rfl⟩ := Prod.mk.inj (Except.ok.inj h)
      exact ⟨trivial, by simp [desc, Prim.letter_of_ofLetter? hp]⟩
    · split at h
      · next hc =>
        split at h
        · simp at h
        · next name tail' hempty hcut =>
          obtain ⟨rfl, rfl⟩ := Prod.mk.inj (Except.ok.inj h)
          obtain ⟨hmem, hrest⟩ := Text.cut_eq_some_iff.mp hcut
          refine ⟨⟨?_, hmem⟩, ?_⟩
          · rintro rfl
            exact hempty rfl
          · simp [desc, hc, hrest]
        · simp at h
      · split at h
        · next hc =>
          split at h
          · simp at h
          · next elem tail' hread =>
            split at h
            · simp at h
            · next hvoid =>
              obtain ⟨rfl, rfl⟩ := Prod.mk.inj (Except.ok.inj h)
              obtain ⟨hw, hrest⟩ := ih hread
              exact ⟨⟨hvoid, hw⟩, by simp [desc, hc, hrest]⟩
        · simp at h

/-- Reading gives back a type that can be written, and leaves what follows its descriptor. -/
theorem read_desc {v : ValueType} (h : v.Writable) (tail : Text) : read (v.desc ++ tail) = .ok (v, tail) := by
  induction v with
  | prim p => simp [desc, read, Prim.ofLetter?_letter]
  | object name =>
    have hletter : Prim.ofLetter? 76 = none := by decide
    have hcut : Text.cut 59 (name ++ 59 :: tail) = some (name, tail) :=
      Text.cut_eq_some_iff.mpr ⟨h.2, rfl⟩
    simp only [desc, List.cons_append, List.append_assoc, read, hletter, if_true, hcut, List.nil_append]
    split
    · next heq =>
      simp only [Option.some.injEq, Prod.mk.injEq] at heq
      exact absurd heq.1 h.1
    · next heq =>
      simp only [Option.some.injEq, Prod.mk.injEq] at heq
      rw [heq.1, heq.2]
    · next heq => simp at heq
  | array elem ih =>
    have hletter : Prim.ofLetter? 91 = none := by decide
    have hne : ¬ (91 : UInt8) = 76 := by decide
    simp only [desc, List.cons_append, read, hletter, hne, if_false, if_true, ih h.2, if_neg h.1]
  | top => exact absurd h id
  | null => exact absurd h id

/-- No descriptor of a type starts with a closing bracket, and none is empty. -/
theorem desc_eq_cons (v : ValueType) : ∃ b rest, v.desc = b :: rest ∧ b ≠ 41 := by
  cases v with
  | prim p => cases p <;> exact ⟨_, _, rfl, by decide⟩
  | object name => exact ⟨_, _, rfl, by decide⟩
  | array elem => exact ⟨_, _, rfl, by decide⟩
  | top => exact ⟨116, "op", by decide, by decide⟩
  | null => exact ⟨110, "ull", by decide, by decide⟩

/-- Every type has a descriptor of its own. -/
theorem desc_inj {t u : ValueType} (h : t.desc = u.desc) : t = u := by
  induction t generalizing u with
  | prim p =>
    cases u with
    | prim q => exact congrArg _ (by cases p <;> cases q <;> first | rfl | cases h)
    | object name => simp [desc] at h
    | array elem =>
      obtain ⟨b, rest, hdesc, -⟩ := elem.desc_eq_cons
      simp [desc, hdesc] at h
    | top => cases p <;> cases h
    | null => cases p <;> cases h
  | object name =>
    cases u with
    | object name' =>
      have h' := (List.cons.inj h).2
      rw [List.append_cancel_right h']
    | prim p => simp [desc] at h
    | array elem => cases (List.cons.inj h).1
    | top => cases (List.cons.inj h).1
    | null => cases (List.cons.inj h).1
  | array elem ih =>
    cases u with
    | array elem' => rw [ih (List.cons.inj h).2]
    | prim p =>
      obtain ⟨b, rest, hdesc, -⟩ := elem.desc_eq_cons
      simp [desc, hdesc] at h
    | object name => cases (List.cons.inj h).1
    | top => cases (List.cons.inj h).1
    | null => cases (List.cons.inj h).1
  | top =>
    cases u with
    | top => rfl
    | prim p => cases p <;> cases h
    | object name => cases (List.cons.inj h).1
    | array elem => cases (List.cons.inj h).1
    | null => cases h
  | null =>
    cases u with
    | null => rfl
    | prim p => cases p <;> cases h
    | object name => cases (List.cons.inj h).1
    | array elem => cases (List.cons.inj h).1
    | top => cases h

theorem size_pos {t : ValueType} (h : t ≠ .void) : 0 < t.size := by
  cases t with
  | prim p => cases p <;> simp_all [size, Prim.size]
  | _ => simp [size]

/-- The type of a class reference is the class of that name, or the array type that the name describes. -/
theorem ofClassName_cases (name : Text) :
    ofClassName name = .object name ∨ ∃ elem, ofClassName name = .array elem ∧ (ValueType.array elem).desc = name := by
  unfold ofClassName
  split
  · next rest =>
    split
    · next t ht =>
      rw [parse] at ht
      split at ht
      · simp at ht
      · next t' hread =>
        obtain rfl := Except.ok.inj ht
        obtain ⟨hwritable, hdesc⟩ := read_sound hread
        rw [List.append_nil] at hdesc
        cases t' with
        | array elem => exact .inr ⟨elem, rfl, hdesc.symm⟩
        | prim p => cases p <;> simp [desc, Prim.letter] at hdesc
        | object name => simp [desc] at hdesc
        | _ => exact absurd hwritable (by simp [Writable])
      · simp at ht
    · exact .inl rfl
  · exact .inl rfl

end ValueType

namespace MethodType

/-- The method types that a descriptor can write. -/
structure Writable (f : MethodType) : Prop where
  params : ∀ t ∈ f.params, t.Writable ∧ t ≠ .void
  result : f.result.Writable

variable {desc : Text} {vs : List ValueType} {f : MethodType}

/-- Parameters that were read can be written. -/
theorem readParams_sound {t rest : Text}
    (h : readParams desc t = .ok (vs, rest)) : ∀ v ∈ vs, v.Writable ∧ v ≠ .void := by
  induction vs generalizing t with
  | nil => simp
  | cons v vs ih =>
    rw [readParams.eq_def] at h
    split at h
    · simp at h
    · simp at h
    · split at h
      · simp at h
      · next u tail hread =>
        split at h
        · simp at h
        · next hvoid =>
          split at h
          · simp at h
          · next us rest' hrest =>
            simp only [Except.ok.injEq, Prod.mk.injEq, List.cons.injEq] at h
            obtain ⟨⟨rfl, rfl⟩, rfl⟩ := h
            exact List.forall_mem_cons.mpr ⟨⟨(ValueType.read_sound hread).1, hvoid⟩, ih hrest⟩

/-- Parameters are read back. -/
theorem readParams_desc (h : ∀ v ∈ vs, v.Writable ∧ v ≠ .void) (desc rest : Text) :
    readParams desc (vs.flatMap ValueType.desc ++ 41 :: rest) = .ok (vs, rest) := by
  induction vs with
  | nil =>
    rw [readParams.eq_def]
    rfl
  | cons v vs ih =>
    obtain ⟨b, tail, hdesc, hb⟩ := v.desc_eq_cons
    have hread := ValueType.read_desc (h v (by simp)).1 (vs.flatMap ValueType.desc ++ 41 :: rest)
    rw [List.flatMap_cons, List.append_assoc, readParams.eq_def]
    split
    · next heq => simp [hdesc] at heq
    · next heq =>
      rw [hdesc, List.cons_append, List.cons.injEq] at heq
      exact absurd heq.1 hb
    · split
      · next hr => simp [hread] at hr
      · next u t' hr =>
        rw [hread, Except.ok.injEq, Prod.mk.injEq] at hr
        obtain ⟨rfl, rfl⟩ := hr
        rw [if_neg (h v (by simp)).2, ih fun w hw => h w (by simp [hw])]

/-- A descriptor that can be read gives a type that can be written. -/
theorem writable_of_parse (h : parse desc = .ok f) : f.Writable := by
  rw [parse.eq_def] at h
  split at h
  · split at h
    · simp at h
    · next params out hparams =>
      split at h
      · simp at h
      · next result hresult =>
        obtain rfl := Except.ok.inj h
        exact ⟨readParams_sound hparams, (ValueType.read_sound hresult).1⟩
      · simp at h
  · simp at h

/-- What was read is made of descriptors. -/
theorem eq_flatMap_of_readParams {t rest : Text} (h : readParams desc t = .ok (vs, rest)) :
    t = vs.flatMap ValueType.desc ++ 41 :: rest := by
  induction vs generalizing t with
  | nil =>
    rw [readParams.eq_def] at h
    split at h
    · cases h
    · obtain ⟨-, rfl⟩ := Prod.mk.inj (Except.ok.inj h)
      rfl
    · split at h
      · cases h
      · split at h
        · cases h
        · split at h <;> cases h
  | cons v vs ih =>
    rw [readParams.eq_def] at h
    split at h
    · cases h
    · cases h
    · split at h
      · cases h
      · next u tail hread =>
        split at h
        · cases h
        · split at h
          · cases h
          · next us rest' hrest =>
            obtain ⟨hvs, rfl⟩ := Prod.mk.inj (Except.ok.inj h)
            obtain ⟨rfl, rfl⟩ := List.cons.inj hvs
            rw [(ValueType.read_sound hread).2, ih hrest, List.flatMap_cons, List.append_assoc]

/-- A descriptor that can be read is the one of the type that it gives. -/
theorem desc_of_parse {t : MethodType} (h : parse desc = .ok t) : t.desc = desc := by
  rw [parse.eq_def] at h
  split at h
  · split at h
    · cases h
    · next params out hparams =>
      split at h
      · cases h
      · next result hresult =>
        obtain rfl := Except.ok.inj h
        rw [MethodType.desc, eq_flatMap_of_readParams hparams, (ValueType.read_sound hresult).2, List.append_nil]
      · cases h
  · cases h

/-- A method type that can be written is read back from its descriptor. -/
theorem parse_desc (h : f.Writable) : parse f.desc = .ok f := by
  have hresult := ValueType.read_desc h.result []
  rw [List.append_nil] at hresult
  rw [parse.eq_def]
  split
  · next args heq =>
    rw [MethodType.desc, List.cons.injEq] at heq
    obtain ⟨-, rfl⟩ := heq
    simp only [readParams_desc h.params, hresult]
  · next hne => exact absurd rfl (hne _)

/-- Splitting leaves a type that can be written. -/
theorem Writable.split {g : MethodType} {indices : List Int} (h : f.Writable)
    (hs : f.split indices = .ok g) : g.Writable := by
  have hparams : ∀ i, ∀ ps : List ValueType, (∀ t ∈ ps, t.Writable ∧ t ≠ .void) →
      ∀ t ∈ splitParams indices i ps, t.Writable ∧ t ≠ .void := by
    intro i ps hps
    induction ps generalizing i with
    | nil => simp [splitParams]
    | cons t ps ih =>
      have hrest := ih (i + 1) fun u hu => hps u (by simp [hu])
      have hint : ValueType.Writable .int ∧ (.int : ValueType) ≠ .void := ⟨trivial, by decide⟩
      rw [splitParams]
      split
      · intro u hu
        simp only [List.mem_cons] at hu
        rcases hu with rfl | rfl | rfl | hu
        exacts [hint, hint, hint, hrest u hu]
      · intro u hu
        rcases List.mem_cons.mp hu with rfl | hu
        exacts [hps _ (by simp), hrest u hu]
  rw [MethodType.split] at hs
  cases hc : indices.forM f.checkSplit with
  | error e => simp [hc, bind, Except.bind] at hs
  | ok u =>
    simp only [hc, bind, Except.bind, pure, Except.pure, Except.ok.injEq] at hs
    subst hs
    exact ⟨hparams 0 f.params h.params, h.result⟩

end MethodType

end CoordSplit
