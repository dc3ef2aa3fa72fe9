import CoordSplit.Proofs.Descriptors
import CoordSplit.Proofs.FlowHistory

/-!
# Frames where two paths meet

Two frames meet if their stacks have the same height and values of the same widths. Every entry and every local slot
of the result is the join of the two that meet there (`Value.IsJoin`, `Value.JoinsUnset`), and the reported change
says whether one of them rose.

The join of two types of one width has that width, with one exception: a long and a double meet in the type of
unusable slots, which takes one word (`ValueType.size_merge_iff`). So a frame that has met another one meets it again
without a change iff no entry of the stack was a long in one of them and a double in the other; otherwise the second
meeting fails, because the widths no longer agree (`Frame.merge_joins`).
-/

set_option autoImplicit false

namespace CoordSplit

/-! ## Widths of joined types -/

namespace ValueType

/-- A long and a double, which are equally wide and have no wide type above both. -/
def Clashes (t u : ValueType) : Prop := t = .long ∧ u = .double ∨ t = .double ∧ u = .long

instance (t u : ValueType) : Decidable (t.Clashes u) := inferInstanceAs (Decidable (_ ∨ _))

variable {t u : ValueType}

theorem eq_of_size_eq_zero (h : t.size = 0) : t = .void := by
  by_contra hne
  have := size_pos hne
  omega

theorem eq_of_size_eq_two (h : t.size = 2) : t = .long ∨ t = .double := by
  cases t with
  | prim p => cases p <;> simp_all [size, Prim.size]
  | _ => cases h

theorem Clashes.size_eq_two (h : t.Clashes u) : t.size = 2 := by
  rcases h with ⟨rfl, -⟩ | ⟨rfl, -⟩ <;> rfl

/-- The join of two types of one width has that width, unless they are a long and a double. -/
theorem size_merge_iff (h : t.size = u.size) : (t.merge u).size = t.size ↔ ¬ t.Clashes u := by
  by_cases hwide : t.size = 2
  · rcases eq_of_size_eq_two hwide with rfl | rfl <;>
      rcases eq_of_size_eq_two (h.symm.trans hwide) with rfl | rfl <;> decide
  · refine iff_of_true ?_ fun hclash => hwide hclash.size_eq_two
    by_cases hvoid : t.size = 0
    · rw [eq_of_size_eq_zero hvoid, eq_of_size_eq_zero (h.symm.trans hvoid), merge_self]
    · have hone : t.size = 1 := by
        have := size_le_two t
        omega
      -- above a type of one word there is nothing wider
      rcases eq_or_size_of_le (merge_absorbs_left t u) with heq | hsize
      · rw [← heq]
      · rw [hsize, hone]

end ValueType

/-! ## Joined values -/

namespace Value

/-- What is known about a local slot on two paths, and on either: a slot that is not set adds nothing. -/
inductive JoinsUnset : Option Value → Option Value → Option Value → Prop
  | unset : JoinsUnset none none none
  | left (v : Value) : JoinsUnset (some v) none (some v)
  | right (w : Value) : JoinsUnset none (some w) (some w)
  | both {u v w : Value} (h : u.IsJoin v w) : JoinsUnset (some v) (some w) (some u)

variable {v w : Value}

theorem joinsUnset_mergeUnset (x y : Option Value) : JoinsUnset x y (mergeUnset x y).1 := by
  cases x with
  | none =>
    cases y with
    | none => exact .unset
    | some w => exact .right w
  | some v =>
    cases y with
    | none => exact .left v
    | some w => exact .both (isJoin_merge v w)

/-- A value that allows another one does not change when it is joined with that. -/
theorem merge_eq_left (h : w ≤ v) : v.merge w = v := by
  have hle : v.merge w ≤ v := merge_le (le_refl v) h
  have hge : v ≤ v.merge w := le_merge_left v w
  apply merge_eq_of_equal
  exact equal_iff.mpr ⟨le_antisymm (type_le hle) (type_le hge), IndexSet.mask_eq_of_subset hle.prod hge.prod,
    IndexSet.mask_eq_of_subset hle.slots hge.slots⟩

theorem equal_self (v : Value) : v.equal v = true := equal_iff.mpr ⟨rfl, rfl, rfl⟩

theorem size_merge_iff (h : v.size = w.size) : (v.merge w).size = v.size ↔ ¬ v.type.Clashes w.type := by
  rw [size, (isJoin_merge v w).type]
  exact ValueType.size_merge_iff h

end Value

/-! ## Stacks and slots that are met again -/

namespace Frame

variable {f g merged : Frame}

variable {vs ws : List Value} {changed : Bool}

/-- Stacks that meet have the same widths. -/
theorem map_size_of_mergeStacks {stack : List Value} {grew : Bool} (hlength : vs.length = ws.length)
    (h : mergeStacks vs ws = (stack, .ok grew)) : vs.map Value.size = ws.map Value.size := by
  induction vs generalizing ws stack grew with
  | nil =>
    obtain rfl : ws = [] := List.length_eq_zero_iff.mp hlength.symm
    rfl
  | cons v vs ih =>
    cases ws with
    | nil => cases hlength
    | cons w ws =>
      rw [mergeStacks] at h
      split at h
      · simp at h
      · next rest grew' hrest =>
        split at h
        · simp at h
        · next hsize =>
          rw [List.map_cons, List.map_cons, not_not.mp hsize, ih (by simpa using hlength) hrest]

/-- Stacks of one height whose entries differ in width do not meet. -/
theorem mergeStacks_error (hlength : vs.length = ws.length)
    (h : vs.map Value.size ≠ ws.map Value.size) : ∃ stack p, mergeStacks vs ws = (stack, .error p) := by
  rcases hmerge : mergeStacks vs ws with ⟨stack, p | grew⟩
  · exact ⟨stack, p, rfl⟩
  · exact absurd (map_size_of_mergeStacks hlength hmerge) h

/-- A stack that covers another one of the same widths is kept. -/
theorem mergeStacks_eq_left (h : List.Forall₂ Value.BelowEvenly ws vs) : mergeStacks vs ws = (vs, .ok false) := by
  induction h with
  | nil => rfl
  | cons hwv _ ih =>
    simp only [mergeStacks, ih, hwv.size, ne_eq, not_true_eq_false, if_false, Value.merge_eq_left hwv.le,
      Value.equal_self, Bool.not_true, Bool.or_false]

/-- Slots that cover all others are kept. -/
theorem mergeLocals_eq_left {xs ys : List (Option Value)} (hlength : ys.length ≤ xs.length)
    (h : ∀ (k : Nat) (w : Value), (ys[k]?).join = some w → ∃ v, (xs[k]?).join = some v ∧ w ≤ v) :
    mergeLocals xs ys = (xs, false) := by
  induction ys generalizing xs with
  | nil => cases xs <;> rfl
  | cons y ys ih =>
    cases xs with
    | nil => cases hlength
    | cons x xs =>
      have hrest := ih (by simpa using hlength) fun k => h (k + 1)
      have hhere : mergeUnset x y = (x, false) := by
        cases y with
        | none => cases x <;> rfl
        | some w =>
          obtain ⟨v, hv, hle⟩ := h 0 w rfl
          obtain rfl : x = some v := hv
          simp [mergeUnset, Value.merge_eq_left hle, Value.equal_self]
      simp only [mergeLocals, hhere, hrest, Bool.or_false]

/-- A frame that covers another one evenly, and has its slots, does not change where they meet. -/
theorem CoversEvenly.merge_eq_left (h : f.CoversEvenly g) (hlength : g.locals.length ≤ f.locals.length) :
    f.merge g = (f, .ok false) := by
  have hheight : f.stack.length = g.stack.length := h.stack.length_eq.symm
  simp only [Frame.merge, hheight, mergeStacks_eq_left h.stack, mergeLocals_eq_left hlength h.locals, ne_eq,
    not_true_eq_false, if_false, Bool.or_false]

/-! ## Meetings -/

/-- Somewhere on the stack one frame has a long where the other has a double. -/
def Clashes (f g : Frame) : Prop :=
  ∃ (i : Nat) (v w : Value), f.stack[i]? = some v ∧ g.stack[i]? = some w ∧ v.type.Clashes w.type

theorem changed_iff_rises (h : f.merge g = (merged, .ok changed)) : changed = true ↔ f.Rises merged := by
  constructor
  · rintro rfl
    exact rises_merge h
  · intro hrises
    by_contra hkept
    exact hrises.not_covers ((merge_covers h).2.2 (by simpa using hkept)).covers

/-- An entry of the stack where two frames meet is the join of theirs, which have one width. -/
theorem entry_of_merge (h : f.merge g = (merged, .ok changed)) {i : Nat} {u : Value} (hu : merged.stack[i]? = some u) :
    ∃ v w, f.stack[i]? = some v ∧ g.stack[i]? = some w ∧ v.size = w.size ∧ v.merge w = u := by
  obtain ⟨hlength, grew, hstacks, -, -⟩ := merge_ok h
  rw [(mergeStacks_ok hstacks hlength).1, List.getElem?_zipWith_eq_some] at hu
  obtain ⟨v, w, hv, hw, hmerge⟩ := hu
  have hsize := congrArg (·[i]?) (map_size_of_mergeStacks hlength hstacks)
  simp only [List.getElem?_map, hv, hw, Option.map_some, Option.some.injEq] at hsize
  exact ⟨v, w, hv, hw, hsize, hmerge⟩

/-- Where two frames meet, the widths are those of the second iff no long met a double. -/
theorem map_size_of_merge_iff (h : f.merge g = (merged, .ok changed)) :
    merged.stack.map Value.size = g.stack.map Value.size ↔ ¬ f.Clashes g := by
  obtain ⟨hf, hg, -⟩ := merge_covers h
  have hlength := hg.stack.length_eq
  constructor
  · rintro heq ⟨i, v, w, hv, hw, hclash⟩
    obtain ⟨u, hu⟩ : ∃ u, merged.stack[i]? = some u := by
      obtain ⟨hi, -⟩ := List.getElem?_eq_some_iff.mp hw
      exact ⟨_, List.getElem?_eq_getElem (hlength ▸ hi)⟩
    obtain ⟨v', w', hv', hw', hsize, rfl⟩ := entry_of_merge h hu
    obtain rfl := Option.some.inj (hv.symm.trans hv')
    obtain rfl := Option.some.inj (hw.symm.trans hw')
    have hwidth := congrArg (·[i]?) heq
    simp only [List.getElem?_map, hu, hw, Option.map_some, Option.some.injEq] at hwidth
    exact (Value.size_merge_iff hsize).mp (hwidth.trans hsize.symm) hclash
  · intro hfree
    apply List.ext_getElem?
    intro i
    rw [List.getElem?_map, List.getElem?_map]
    cases hu : merged.stack[i]? with
    | none =>
      rw [List.getElem?_eq_none_iff, ← hlength, ← List.getElem?_eq_none_iff] at hu
      rw [hu]
    | some u =>
      obtain ⟨v, w, hv, hw, hsize, rfl⟩ := entry_of_merge h hu
      have hkept := (Value.size_merge_iff hsize).mpr fun hclash => hfree ⟨i, v, w, hv, hw, hclash⟩
      rw [hw, Option.map_some, Option.map_some, hkept, hsize]

theorem Covers.evenly_of_map_size (hgf : g.Covers f) (hsize : g.stack.map Value.size = f.stack.map Value.size) :
    g.CoversEvenly f := by
  refine ⟨?_, hgf.locals⟩
  have hstack := hgf.stack
  generalize f.stack = vs, g.stack = ws at hstack hsize
  induction hstack with
  | nil => exact .nil
  | cons hle _ ih =>
    simp only [List.map_cons, List.cons.injEq] at hsize
    exact .cons ⟨hle, hsize.1.symm⟩ (ih hsize.2)

/-- A frame that has met another one without a clash meets it again without a change. -/
theorem merge_again (h : f.merge g = (merged, .ok changed)) (hfree : ¬ f.Clashes g) :
    merged.merge g = (merged, .ok false) := by
  obtain ⟨-, -, -, hlocals, -⟩ := merge_ok h
  have heven := (merge_covers h).2.1.evenly_of_map_size ((map_size_of_merge_iff h).mpr hfree)
  apply heven.merge_eq_left
  rw [hlocals, length_mergeLocals]
  exact le_max_right _ _

/-- After a clash the frames no longer meet. -/
theorem merge_again_error (h : f.merge g = (merged, .ok changed)) (hclash : f.Clashes g) :
    ∃ left p, merged.merge g = (left, .error (.width p)) := by
  have hlength := (merge_covers h).2.1.stack.length_eq.symm
  have hsize : merged.stack.map Value.size ≠ g.stack.map Value.size :=
    fun heq => (map_size_of_merge_iff h).mp heq hclash
  obtain ⟨stack, p, hstacks⟩ := mergeStacks_error hlength hsize
  refine ⟨{ merged with stack := stack }, p, ?_⟩
  simp only [Frame.merge, hlength, hstacks, ne_eq, not_true_eq_false, if_false]

/-- What a successful meeting of two frames gives: a stack of their height whose entries are the joins of theirs, and
slots that are the joins of theirs. It reports a change iff one of them rose, and keeps all of them otherwise. The
widths of the entries stay, and the same meeting once more changes nothing, unless a long meets a double. -/
theorem merge_joins {changed : Bool} (h : f.merge g = (merged, .ok changed)) :
    merged.stack.length = f.stack.length ∧ merged.stack.length = g.stack.length ∧
    (∀ (i : Nat) (u : Value), merged.stack[i]? = some u → ∃ v w, f.stack[i]? = some v ∧ g.stack[i]? = some w ∧
      u.IsJoin v w ∧ v.size = w.size ∧ (u.size = v.size ↔ ¬ v.type.Clashes w.type)) ∧
    (∀ k : Nat, Value.JoinsUnset (f.localAt k) (g.localAt k) (merged.localAt k)) ∧
    (changed = true ↔ f.Rises merged) ∧
    (changed = false → merged.stack = f.stack ∧ ∀ k : Nat, merged.localAt k = f.localAt k) ∧
    (¬ f.Clashes g → merged.merge g = (merged, .ok false)) ∧
    (f.Clashes g → ∃ left p, merged.merge g = (left, .error (.width p))) := by
  obtain ⟨hlength, grew, hstacks, hlocals, hchanged⟩ := merge_ok h
  obtain ⟨hf, hg, -⟩ := merge_covers h
  refine ⟨hf.stack.length_eq.symm, hg.stack.length_eq.symm, ?_, ?_, changed_iff_rises h, ?_, merge_again h,
    merge_again_error h⟩
  · intro i u hu
    obtain ⟨v, w, hv, hw, hsize, rfl⟩ := entry_of_merge h hu
    exact ⟨v, w, hv, hw, Value.isJoin_merge v w, hsize, Value.size_merge_iff hsize⟩
  · intro k
    rw [localAt_merge h]
    exact Value.joinsUnset_mergeUnset _ _
  · rintro rfl
    obtain ⟨hgrew, hsame⟩ := Bool.or_eq_false_iff.mp hchanged.symm
    refine ⟨(mergeStacks_ok hstacks hlength).2 hgrew, fun k => ?_⟩
    rw [localAt_natCast, hlocals, join_getElem?_mergeLocals_of_kept hsame]
    rfl

/-- A frame with a boolean above a long, and a reference in its first slot. -/
def longBelow : Frame :=
  ⟨[.produced (.prim .boolean) 3, .produced .long 1], [some (.produced .objectClass 0)]⟩

/-- A frame with a byte above a double, and an int in its second slot. -/
def doubleBelow : Frame :=
  ⟨[.produced (.prim .byte) 4, .produced .double 2], [none, some (.produced .int 5)]⟩

/-- The boolean and the byte meet in an int, and the long and the double in an unusable entry of one word: the frames
meet once and not again. -/
theorem merge_joins_longDouble : ∃ merged, longBelow.merge doubleBelow = (merged, .ok true) ∧
    longBelow.Rises merged ∧ longBelow.stack.map Value.size = [1, 2] ∧ doubleBelow.stack.map Value.size = [1, 2] ∧
    merged.stack.map Value.size = [1, 1] ∧
    Value.JoinsUnset none (some (.produced .int 5)) (merged.localAt 1) ∧
    ∃ left p, merged.merge doubleBelow = (left, .error (.width p)) := by
  have h : longBelow.merge doubleBelow = ((longBelow.merge doubleBelow).1, .ok true) := rfl
  obtain ⟨-, -, -, hslots, hchanged, -, -, hagain⟩ := merge_joins h
  have hclash : longBelow.Clashes doubleBelow := ⟨1, _, _, rfl, rfl, by decide⟩
  exact ⟨_, h, hchanged.mp rfl, rfl, rfl, rfl, hslots 1, hagain hclash⟩

end Frame

end CoordSplit
