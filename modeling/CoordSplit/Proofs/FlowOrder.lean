import CoordSplit.Proofs.StepEffects
import CoordSplit.Proofs.TypeOrder
import CoordSplit.Proofs.Verification

/-!
# How much a frame allows

A frame covers another one if it allows all that the other one allows: as many stack entries, and everywhere at
least the producers and slots of the other one and a type that takes in the other's type. The frame where two paths
meet covers both (`Frame.merge_covers`), and no frame that does allows less (`Frame.CoversEvenly.merge`).

Steps are monotone (`step_mono`): from a frame that covers another one, with entries of the same widths on the stack,
an instruction comes to a frame that covers what it comes to from the other one.
-/

set_option autoImplicit false

namespace CoordSplit

/-! ## Values -/

namespace IndexSet

instance : HasSubset IndexSet := ⟨fun s t => ∀ k, k ∈ s → k ∈ t⟩

variable {s t u : IndexSet}

theorem subset_refl (s : IndexSet) : s ⊆ s := fun _ h => h

theorem subset_trans (h : s ⊆ t) (h' : t ⊆ u) : s ⊆ u := fun k hk => h' k (h k hk)

theorem subset_of_equal (h : s.equal t = true) : s ⊆ t := fun k => (equal_iff.mp h k).mp

end IndexSet

namespace Value

/-- The first value is allowed wherever the second one is. -/
structure Below (v w : Value) : Prop where
  type : v.type.merge w.type = w.type
  prod : v.prod ⊆ w.prod
  slots : v.slots ⊆ w.slots

instance : Preorder Value where
  le := Below
  le_refl v := ⟨le_refl v.type, v.prod.subset_refl, v.slots.subset_refl⟩
  le_trans _ _ _ h h' := ⟨@le_trans ValueType _ _ _ _ h.type h'.type, IndexSet.subset_trans h.prod h'.prod,
    IndexSet.subset_trans h.slots h'.slots⟩

variable {u v w : Value}

theorem type_le (h : v ≤ w) : v.type ≤ w.type := h.type

theorem equal_iff : v.equal w = true ↔
    v.type = w.type ∧ v.prod.mask = w.prod.mask ∧ v.slots.mask = w.slots.mask := by
  rw [equal, Bool.and_eq_true, Bool.and_eq_true, decide_eq_true_eq, IndexSet.equal_iff, IndexSet.equal_iff,
    ← IndexSet.mask_eq_iff, ← IndexSet.mask_eq_iff, and_assoc]

/-- What is known on two paths has the union of what is known on either. -/
theorem merge_eq_or (v w : Value) :
    v.merge w = ⟨v.type.merge w.type, v.prod.union w.prod, v.slots.union w.slots⟩ ∨
      v.merge w = v ∧ Value.equal ⟨v.type.merge w.type, v.prod.union w.prod, v.slots.union w.slots⟩ v = true := by
  rw [merge]
  split
  · next h => exact .inr ⟨rfl, h⟩
  · exact .inl rfl

/-- The first value is the join of the other two: it has the merged type, and the producers and the slots of either. -/
structure IsJoin (u v w : Value) : Prop where
  type : u.type = v.type.merge w.type
  prod : ∀ k, k ∈ u.prod ↔ k ∈ v.prod ∨ k ∈ w.prod
  slots : ∀ k, k ∈ u.slots ↔ k ∈ v.slots ∨ k ∈ w.slots

theorem isJoin_merge (v w : Value) : (v.merge w).IsJoin v w := by
  have hjoin : IsJoin ⟨v.type.merge w.type, v.prod.union w.prod, v.slots.union w.slots⟩ v w :=
    ⟨rfl, by simp, by simp⟩
  rcases merge_eq_or v w with h | ⟨h, hequal⟩
  · rw [h]
    exact hjoin
  · rw [h]
    obtain ⟨htype, hprod, hslots⟩ := equal_iff.mp hequal
    refine ⟨htype.symm, fun k => ?_, fun k => ?_⟩
    · rw [← hjoin.prod, IndexSet.mem_iff, IndexSet.mem_iff, hprod]
    · rw [← hjoin.slots, IndexSet.mem_iff, IndexSet.mem_iff, hslots]

theorem le_merge_left (v w : Value) : v ≤ v.merge w := by
  have hjoin := isJoin_merge v w
  refine ⟨?_, fun k hk => (hjoin.prod k).mpr (.inl hk), fun k hk => (hjoin.slots k).mpr (.inl hk)⟩
  rw [hjoin.type]
  exact @le_sup_left ValueType _ _ _

theorem le_merge_right (v w : Value) : w ≤ v.merge w := by
  have hjoin := isJoin_merge v w
  refine ⟨?_, fun k hk => (hjoin.prod k).mpr (.inr hk), fun k hk => (hjoin.slots k).mpr (.inr hk)⟩
  rw [hjoin.type]
  exact @le_sup_right ValueType _ _ _

theorem merge_le (hv : v ≤ u) (hw : w ≤ u) : v.merge w ≤ u := by
  have hjoin := isJoin_merge v w
  refine ⟨?_, fun k hk => ((hjoin.prod k).mp hk).elim (hv.prod k) (hw.prod k),
    fun k hk => ((hjoin.slots k).mp hk).elim (hv.slots k) (hw.slots k)⟩
  rw [hjoin.type]
  exact sup_le (type_le hv) (type_le hw)

/-- A value that does not grow is kept. -/
theorem merge_eq_of_equal (h : (v.merge w).equal v = true) : v.merge w = v := by
  rcases merge_eq_or v w with heq | ⟨heq, -⟩
  · rw [heq] at h
    rw [merge, if_pos h]
  · exact heq

/-- Below, with the same width. -/
structure BelowEvenly (v w : Value) : Prop where
  le : v ≤ w
  size : v.size = w.size

theorem BelowEvenly.refl (v : Value) : v.BelowEvenly v := ⟨le_refl v, rfl⟩

theorem BelowEvenly.trans (h : u.BelowEvenly v) (h' : v.BelowEvenly w) : u.BelowEvenly w :=
  ⟨h.le.trans h'.le, h.size.trans h'.size⟩

theorem BelowEvenly.merge (hv : v.BelowEvenly u) (hw : w.BelowEvenly u) : (v.merge w).BelowEvenly u := by
  have hle := merge_le hv.le hw.le
  exact ⟨hle, ValueType.size_eq_of_between (type_le (le_merge_left v w)) (type_le hle) hv.size⟩

theorem BelowEvenly.of_le (h : v ≤ w) (hw : w.type ≠ .top) : v.BelowEvenly w :=
  ⟨h, ValueType.size_eq_of_le (type_le h) hw⟩

theorem BelowEvenly.isWide (h : v.BelowEvenly w) : w.isWide = v.isWide := by rw [Value.isWide, Value.isWide, h.size]

end Value

/-! ## Frames -/

theorem forall₂_trans {α : Type} {R : α → α → Prop} (hR : ∀ a b c, R a b → R b c → R a c) {l₁ l₂ l₃ : List α}
    (h : List.Forall₂ R l₁ l₂) (h' : List.Forall₂ R l₂ l₃) : List.Forall₂ R l₁ l₃ := by
  induction h generalizing l₃ with
  | nil => exact h'
  | cons hab _ ih =>
    obtain ⟨c, l, hbc, hl, rfl⟩ := List.forall₂_cons_left_iff.mp h'
    exact .cons (hR _ _ _ hab hbc) (ih hl)

/-- Related lists can be cut at the same place. -/
theorem forall₂_append_split {α : Type} {R : α → α → Prop} {a a' b b' : List α}
    (h : List.Forall₂ R (a ++ b) (a' ++ b')) (hlength : a.length = a'.length) :
    List.Forall₂ R a a' ∧ List.Forall₂ R b b' := by
  have htake := List.forall₂_take a.length h
  have hdrop := List.forall₂_drop a.length h
  rw [List.take_left, hlength, List.take_left] at htake
  rw [List.drop_left, hlength, List.drop_left] at hdrop
  exact ⟨htake, hdrop⟩

namespace Frame

@[simp] theorem localAt_natCast (f : Frame) (k : Nat) : f.localAt k = (f.locals[k]?).join := rfl

/-- Every slot that the second frame has set is set in the first one, which allows its value. -/
def LocalsCover (g f : Frame) : Prop :=
  ∀ (k : Nat) (v : Value), f.localAt k = some v → ∃ w, g.localAt k = some w ∧ v ≤ w

/-- The first frame allows all that the second one allows. -/
structure Covers (g f : Frame) : Prop where
  stack : List.Forall₂ (· ≤ ·) f.stack g.stack
  locals : g.LocalsCover f

/-- The first frame covers the second one, and their stack entries have the same widths. -/
structure CoversEvenly (g f : Frame) : Prop where
  stack : List.Forall₂ Value.BelowEvenly f.stack g.stack
  locals : g.LocalsCover f

variable {f g h : Frame}

theorem LocalsCover.refl (f : Frame) : f.LocalsCover f := fun _ v hv => ⟨v, hv, le_refl v⟩

theorem LocalsCover.trans (hgh : h.LocalsCover g) (hfg : g.LocalsCover f) : h.LocalsCover f := by
  intro k v hv
  obtain ⟨w, hw, hvw⟩ := hfg k v hv
  obtain ⟨u, hu, hwu⟩ := hgh k w hw
  exact ⟨u, hu, hvw.trans hwu⟩

theorem Covers.refl (f : Frame) : f.Covers f := ⟨List.forall₂_refl _, .refl f⟩

theorem Covers.trans (hgh : h.Covers g) (hfg : g.Covers f) : h.Covers f :=
  ⟨forall₂_trans (R := fun v w => v ≤ w) (fun _ _ _ => le_trans) hfg.stack hgh.stack, hgh.locals.trans hfg.locals⟩

theorem CoversEvenly.refl (f : Frame) : f.CoversEvenly f :=
  ⟨List.forall₂_same.mpr fun v _ => .refl v, .refl f⟩

theorem CoversEvenly.trans (hgh : h.CoversEvenly g) (hfg : g.CoversEvenly f) : h.CoversEvenly f :=
  ⟨forall₂_trans (R := Value.BelowEvenly) (fun _ _ _ => .trans) hfg.stack hgh.stack, hgh.locals.trans hfg.locals⟩

theorem CoversEvenly.covers (hgf : g.CoversEvenly f) : g.Covers f :=
  ⟨hgf.stack.imp fun _ _ h => h.le, hgf.locals⟩

/-- Where no entry has the type of unusable slots, covering keeps the widths. -/
theorem Covers.evenly (hgf : g.Covers f) (htop : ∀ v ∈ g.stack, v.type ≠ .top) : g.CoversEvenly f := by
  refine ⟨?_, hgf.locals⟩
  have hstack := hgf.stack
  generalize f.stack = vs, g.stack = ws at hstack htop
  induction hstack with
  | nil => exact .nil
  | cons hle _ ih => exact .cons (.of_le hle (htop _ (by simp))) (ih fun v hv => htop v (by simp [hv]))

/-! ## Frames that meet -/

variable {vs ws : List Value} {merged : Frame} {changed : Bool}

/-- The entries of two stacks that meet. -/
theorem mergeStacks_ok {merged : List Value} {grew : Bool} (h : mergeStacks vs ws = (merged, .ok grew))
    (hlength : vs.length = ws.length) : merged = List.zipWith Value.merge vs ws ∧ (grew = false → merged = vs) := by
  induction vs generalizing ws merged grew with
  | nil =>
    obtain rfl : ws = [] := List.length_eq_zero_iff.mp hlength.symm
    obtain ⟨rfl, -⟩ := Prod.mk.inj h
    exact ⟨rfl, fun _ => rfl⟩
  | cons v vs ih =>
    cases ws with
    | nil => simp at hlength
    | cons w ws =>
      rw [mergeStacks] at h
      split at h
      · simp at h
      · next rest grew' hrest =>
        obtain ⟨hzip, hkept⟩ := ih hrest (by simpa using hlength)
        split at h
        · simp at h
        · obtain ⟨rfl, hgrew⟩ := Prod.mk.inj h
          refine ⟨by rw [hzip, List.zipWith_cons_cons], ?_⟩
          rintro rfl
          have hsame := Except.ok.inj hgrew
          simp only [Bool.or_eq_false_iff, Bool.not_eq_false'] at hsame
          rw [hkept hsame.1, Value.merge_eq_of_equal hsame.2]

/-- Merged values are above both. -/
theorem le_zipWith_merge (hlength : vs.length = ws.length) :
    List.Forall₂ (· ≤ ·) vs (List.zipWith Value.merge vs ws) ∧
      List.Forall₂ (· ≤ ·) ws (List.zipWith Value.merge vs ws) := by
  induction vs generalizing ws with
  | nil =>
    obtain rfl : ws = [] := List.length_eq_zero_iff.mp hlength.symm
    exact ⟨.nil, .nil⟩
  | cons v vs ih =>
    cases ws with
    | nil => simp at hlength
    | cons w ws =>
      obtain ⟨hvs, hws⟩ := ih (by simpa using hlength)
      exact ⟨.cons (Value.le_merge_left v w) hvs, .cons (Value.le_merge_right v w) hws⟩

theorem zipWith_merge_le {us : List Value} (hvs : List.Forall₂ Value.BelowEvenly vs us)
    (hws : List.Forall₂ Value.BelowEvenly ws us) :
    List.Forall₂ Value.BelowEvenly (List.zipWith Value.merge vs ws) us := by
  induction hvs generalizing ws with
  | nil =>
    cases hws
    exact .nil
  | cons hv _ ih =>
    cases hws with
    | cons hw hws => exact .cons (hv.merge hw) (ih hws)

/-- Unless more is known about one of them, the slots stay as they were. -/
theorem join_getElem?_mergeLocals_of_kept {xs ys : List (Option Value)} (h : (mergeLocals xs ys).2 = false) (k : Nat) :
    ((mergeLocals xs ys).1[k]?).join = (xs[k]?).join := by
  induction ys generalizing xs k with
  | nil => cases xs <;> rfl
  | cons y ys ih =>
    cases xs with
    | nil =>
      simp only [mergeLocals, Bool.or_eq_false_iff] at h ⊢
      cases k with
      | zero =>
        cases y with
        | none => rfl
        | some w => simp at h
      | succ k => simpa using ih h.2 k
    | cons x xs =>
      simp only [mergeLocals, Bool.or_eq_false_iff] at h ⊢
      cases k with
      | zero =>
        cases y with
        | none => rfl
        | some w =>
          cases x with
          | none => simp [mergeUnset] at h
          | some v =>
            have hequal : (v.merge w).equal v = true := by simpa [mergeUnset] using h.1
            simp [mergeUnset, Value.merge_eq_of_equal hequal]
      | succ k => simpa using ih h.2 k

section

variable (hmerge : f.merge g = (merged, .ok changed))

include hmerge

/-- The stages of a meeting. -/
theorem merge_ok :
    f.stack.length = g.stack.length ∧ ∃ grew, mergeStacks f.stack g.stack = (merged.stack, .ok grew) ∧
      merged.locals = (mergeLocals f.locals g.locals).1 ∧ changed = (grew || (mergeLocals f.locals g.locals).2) := by
  rw [Frame.merge] at hmerge
  split at hmerge
  · simp at hmerge
  · next hlength =>
    split at hmerge
    · simp at hmerge
    · next stack grew hstacks =>
      obtain ⟨rfl, hchanged⟩ := Prod.mk.inj hmerge
      exact ⟨not_not.mp hlength, grew, hstacks, rfl, (Except.ok.inj hchanged).symm⟩

theorem localAt_merge (k : Nat) :
    merged.localAt k = (mergeUnset (f.localAt k) (g.localAt k)).1 := by
  obtain ⟨-, -, -, hlocals, -⟩ := merge_ok hmerge
  rw [localAt_natCast, hlocals, join_getElem?_mergeLocals]
  rfl

/-- What a slot holds where two paths meet comes from either path or from both. -/
theorem localAt_of_merge {k : Nat} {u : Value} (hu : merged.localAt k = some u) :
    f.localAt k = some u ∨ g.localAt k = some u ∨
      ∃ v w, f.localAt k = some v ∧ g.localAt k = some w ∧ u = v.merge w := by
  rw [localAt_merge hmerge] at hu
  cases hf : f.localAt k with
  | none =>
    cases hg : g.localAt k with
    | none => simp [hf, hg, mergeUnset] at hu
    | some w =>
      rw [hf, hg] at hu
      exact .inr (.inl hu)
  | some v =>
    cases hg : g.localAt k with
    | none =>
      rw [hf, hg] at hu
      exact .inl hu
    | some w =>
      rw [hf, hg] at hu
      exact .inr (.inr ⟨v, w, rfl, rfl, (Option.some.inj hu).symm⟩)

/-- The frame where two paths meet covers both of theirs. If it did not change, it allows no more than the first. -/
theorem merge_covers :
    merged.Covers f ∧ merged.Covers g ∧ (changed = false → f.CoversEvenly merged) := by
  obtain ⟨hlength, grew, hstacks, hlocals, hchanged⟩ := merge_ok hmerge
  obtain ⟨hzip, hkept⟩ := mergeStacks_ok hstacks hlength
  obtain ⟨hf, hg⟩ := le_zipWith_merge hlength
  rw [← hzip] at hf hg
  refine ⟨⟨hf, ?_⟩, ⟨hg, ?_⟩, ?_⟩
  · intro k v hv
    rw [localAt_merge hmerge, hv]
    cases g.localAt k with
    | none => exact ⟨v, rfl, le_refl v⟩
    | some w => exact ⟨v.merge w, rfl, Value.le_merge_left v w⟩
  · intro k w hw
    rw [localAt_merge hmerge, hw]
    cases f.localAt k with
    | none => exact ⟨w, rfl, le_refl w⟩
    | some v => exact ⟨v.merge w, rfl, Value.le_merge_right v w⟩
  · rintro rfl
    obtain ⟨hgrew, hsame⟩ := Bool.or_eq_false_iff.mp hchanged.symm
    refine ⟨?_, ?_⟩
    · rw [hkept hgrew]
      exact (CoversEvenly.refl f).stack
    · intro k v hv
      rw [localAt_natCast, hlocals, join_getElem?_mergeLocals_of_kept hsame] at hv
      exact ⟨v, hv, le_refl v⟩

end

/-- No frame that covers both, with the same widths, allows less than the frame where they meet. -/
theorem CoversEvenly.merge (hf : h.CoversEvenly f) (hg : h.CoversEvenly g)
    (hmerge : f.merge g = (merged, .ok changed)) : h.CoversEvenly merged := by
  obtain ⟨hlength, grew, hstacks, -, -⟩ := merge_ok hmerge
  refine ⟨?_, ?_⟩
  · rw [(mergeStacks_ok hstacks hlength).1]
    exact zipWith_merge_le hf.stack hg.stack
  · intro k u hu
    rcases localAt_of_merge hmerge hu with hfk | hgk | ⟨v, w, hfk, hgk, rfl⟩
    · exact hf.locals k u hfk
    · exact hg.locals k u hgk
    · obtain ⟨v', hv', hle⟩ := hf.locals k v hfk
      obtain ⟨w', hw', hle'⟩ := hg.locals k w hgk
      obtain rfl := Option.some.inj (hv'.symm.trans hw')
      exact ⟨v', hv', Value.merge_le hle hle'⟩

end Frame

/-! ## Steps are monotone -/

namespace Step

variable {vs : List Value}

/-- Popping words keeps the order. -/
theorem popWords_mono {n : Int} {ws dropped dropped' rest rest' : List Value}
    (h : List.Forall₂ Value.BelowEvenly vs ws) (hvs : popWords n vs = .ok (dropped, rest))
    (hws : popWords n ws = .ok (dropped', rest')) : List.Forall₂ Value.BelowEvenly rest rest' := by
  induction h generalizing n dropped dropped' with
  | nil =>
    obtain ⟨-, rfl⟩ := List.append_eq_nil_iff.mp (popWords_ok hvs).symm
    obtain ⟨-, rfl⟩ := List.append_eq_nil_iff.mp (popWords_ok hws).symm
    exact .nil
  | @cons v w vs ws hvw hrest ih =>
    rw [popWords] at hvs hws
    by_cases hn : n = 0
    · rw [if_pos hn] at hvs hws
      obtain ⟨-, rfl⟩ := Prod.mk.inj (Except.ok.inj hvs)
      obtain ⟨-, rfl⟩ := Prod.mk.inj (Except.ok.inj hws)
      exact .cons hvw hrest
    · rw [if_neg hn] at hvs hws
      split at hvs
      · cases hvs
      · next hneg =>
        rw [if_neg hneg] at hws
        split at hvs
        · cases hvs
        · next vs' rest₁ hpop =>
          obtain ⟨-, rfl⟩ := Prod.mk.inj (Except.ok.inj hvs)
          split at hws
          · cases hws
          · next ws' rest₂ hpop' =>
            obtain ⟨-, rfl⟩ := Prod.mk.inj (Except.ok.inj hws)
            rw [← hvw.size] at hpop'
            exact ih hpop hpop'

theorem forall₂_picks {α : Type} {R : α → α → Prop} {top top' : List α} (h : List.Forall₂ R top top')
    (picks : List Nat) : List.Forall₂ R (picks.filterMap (top[·]?)) (picks.filterMap (top'[·]?)) := by
  induction picks with
  | nil => exact .nil
  | cons i picks ih =>
    have hlength := h.length_eq
    by_cases hi : i < top.length
    · have hi' : i < top'.length := hlength ▸ hi
      rw [List.filterMap_cons_some (List.getElem?_eq_getElem hi),
        List.filterMap_cons_some (List.getElem?_eq_getElem hi')]
      exact .cons (h.get hi hi') ih
    · rw [List.filterMap_cons_none (List.getElem?_eq_none (by omega)),
        List.filterMap_cons_none (List.getElem?_eq_none (by omega))]
      exact ih

theorem map_isWide_eq {ws : List Value} (h : List.Forall₂ Value.BelowEvenly vs ws) :
    ws.map Value.isWide = vs.map Value.isWide := by
  induction h with
  | nil => rfl
  | cons hvw _ ih => rw [List.map_cons, List.map_cons, hvw.isWide, ih]

/-- Values of the same widths are moved to the same places. -/
theorem rearranges_mono {op : Opcode} {top top' rest vs' others : List Value}
    (hle : List.Forall₂ Value.BelowEvenly (top ++ rest) (vs ++ others)) (htop : Rearranges Value.isWide op top top')
    (hvs : Rearranges Value.isWide op vs vs') : List.Forall₂ Value.BelowEvenly (top' ++ rest) (vs' ++ others) := by
  have ⟨picks, hpicks, htop'⟩ := htop
  obtain ⟨ws, others', htake, hwsLe, hrestLe⟩ : ∃ ws others', vs ++ others = ws ++ others' ∧
      List.Forall₂ Value.BelowEvenly top ws ∧ List.Forall₂ Value.BelowEvenly rest others' := by
    have hlength := hle.length_eq
    rw [List.length_append] at hlength
    have hsplit := (List.take_append_drop top.length (vs ++ others)).symm
    rw [hsplit] at hle
    exact ⟨_, _, hsplit, forall₂_append_split hle (by rw [List.length_take]; omega)⟩
  -- the same operation moves both, so it is the same arrangement
  have hws : Rearranges Value.isWide op ws (picks.filterMap (ws[·]?)) :=
    ⟨picks, by rw [map_isWide_eq hwsLe, hpicks], rfl⟩
  have hsame := shuffle_of_rearranges hws others'
  rw [← htake, shuffle_of_rearranges hvs] at hsame
  rw [Except.ok.inj hsame, htop']
  exact List.rel_append (forall₂_picks hwsLe picks) hrestLe

/-- Storing keeps the order. -/
theorem setLocal_mono {f g : Frame} (h : g.LocalsCover f) {v w : Value} (hvw : v.BelowEvenly w) (hpos : 0 < v.size)
    (k : Nat) (stack stack' : List Value) :
    Frame.LocalsCover ⟨stack', setLocal g.locals k w⟩ ⟨stack, setLocal f.locals k v⟩ := by
  intro j u hu
  rw [Frame.localAt_natCast] at hu ⊢
  simp only [join_getElem?_setLocal _ _ _ hpos] at hu
  simp only [join_getElem?_setLocal _ _ _ (hvw.size ▸ hpos), hvw.isWide]
  split at hu
  · next hj =>
    obtain rfl := Option.some.inj hu
    exact ⟨w, if_pos hj, hvw.le⟩
  · next hj =>
    split at hu
    · cases hu
    · next habove =>
      split at hu
      · cases hu
      · next hbelow =>
        obtain ⟨u', hu', hle⟩ := h j u hu
        rw [Frame.localAt_natCast] at hu'
        refine ⟨u', ?_, hle⟩
        rw [if_neg hj, if_neg habove, if_neg, hu']
        -- a wide value is only above itself, so what is cut here was cut there
        rintro ⟨hnext, hwide⟩
        apply hbelow
        rw [hu', Option.any_some, Value.isWide, decide_eq_true_eq] at hwide
        have htop : u'.type ≠ .top := by
          intro htop
          rw [Value.size, htop] at hwide
          cases hwide
        have hsize : u.size = 2 := (ValueType.size_eq_of_le (Value.type_le hle) htop).trans hwide
        exact ⟨hnext, by rw [hu, Option.any_some, Value.isWide, decide_eq_true_eq, hsize]⟩

end Step

/-- From more an instruction comes to more. -/
theorem step_mono {id : Nat} {x : Insn} {f g : Frame} {r r' : StepResult} (hgf : g.CoversEvenly f)
    (hf : step id x f = .ok r) (hg : step id x g = .ok r') : r'.frame.CoversEvenly r.frame := by
  obtain ⟨act, hact, hfe⟩ := Action.of_step hf
  obtain ⟨act', hact', hge⟩ := Action.of_step hg
  obtain rfl := Option.some.inj (hact.symm.trans hact')
  have hstack := hgf.stack
  cases hfe with
  | exchange taken hfs hsizes =>
    cases hge with
    | exchange taken' hgs hsizes' =>
      rw [hfs, hgs] at hstack
      have hlength := congrArg List.length (hsizes.trans hsizes'.symm)
      simp only [List.length_map] at hlength
      obtain ⟨-, hrest⟩ := forall₂_append_split hstack (by simpa using hlength)
      exact ⟨List.rel_append (List.forall₂_same.mpr fun v _ => .refl v) hrest, hgf.locals⟩
  | drop hfw =>
    cases hge with
    | drop hgw => exact ⟨Step.popWords_mono hstack hfw hgw, hgf.locals⟩
  | move hfs hmove =>
    cases hge with
    | move hgs hmove' =>
      rw [hfs, hgs] at hstack
      exact ⟨Step.rearranges_mono hstack hmove hmove', hgf.locals⟩
  | @load op t k v ht hv hsize =>
    cases hge with
    | @load _ _ _ w _ hw hsize' =>
      obtain ⟨w', hw', hle⟩ := hgf.locals k v hv
      obtain rfl := Option.some.inj (hw.symm.trans hw')
      refine ⟨.cons ?_ hstack, hgf.locals⟩
      split
      · next hop =>
        have hone : t.size = 1 := by rcases hop with rfl | rfl <;> cases ht <;> rfl
        have hsizes : ∀ u : Value, (u.size = t.size ∨ u.type = .top) → u.type.size = 1 := by
          rintro u (hu | hu)
          · exact hu.trans hone
          · rw [hu]
            rfl
        exact ⟨⟨hle.type, IndexSet.subset_refl _, IndexSet.subset_refl _⟩,
          (hsizes v hsize).trans (hsizes w hsize').symm⟩
      · exact .refl _
  | @store op t k v rest ht hfs hsize =>
    cases hge with
    | store _ hgs _ =>
      rw [hfs, hgs] at hstack
      obtain ⟨hvw, hrest⟩ := List.forall₂_cons.mp hstack
      have hstored : Value.BelowEvenly ⟨_, _, .singleton k⟩ ⟨_, _, .singleton k⟩ :=
        ⟨⟨hvw.le.type, hvw.le.prod, IndexSet.subset_refl _⟩, hvw.size⟩
      exact ⟨hrest, Step.setLocal_mono hgf.locals hstored (hsize ▸ Action.varType?_size_pos ht) k _ _⟩
  | @increment k v hv hint =>
    cases hge with
    | @increment _ w hw hint' =>
      refine ⟨hstack, ?_⟩
      intro j u hu
      rw [Frame.localAt_natCast, Step.join_getElem?_set (Frame.lt_length_of_localAt hv)] at hu
      rw [Frame.localAt_natCast, Step.join_getElem?_set (Frame.lt_length_of_localAt hw)]
      split at hu
      · next hj => exact ⟨u, by rw [if_pos hj, hu], le_refl u⟩
      · next hj =>
        rw [if_neg hj]
        exact hgf.locals j u hu

end CoordSplit
