import CoordSplit.Proofs.FlowEdges

/-!
# The worklist runs dry

The analysis visits no more than `Layout.visitBound` positions. That is enough (`Analysis.loop_ends`): a position
is queued only when the frame before it is set or grows, and a frame cannot grow for ever. Its weight counts the
entries, the producers and slots of each and the height of each type; it rises with every change and is bounded,
since producers are ids of the code, slots are those that the code and the parameters name, and an instruction leaves
at most two more entries on the stack than it finds there.
-/

set_option autoImplicit false

namespace CoordSplit

open IndexSet

/-! ## Weights -/

namespace IndexSet

variable {s t : IndexSet}

theorem toFinset_subset (h : s ⊆ t) : s.toList.toFinset ⊆ t.toList.toFinset := by
  intro k hk
  rw [List.mem_toFinset, mem_toList] at hk ⊢
  exact h k hk

theorem size_mono (h : s ⊆ t) : s.size ≤ t.size := by
  rw [size_eq_card, size_eq_card]
  exact Finset.card_le_card (toFinset_subset h)

theorem mask_eq_of_subset (h : s ⊆ t) (h' : t ⊆ s) : s.mask = t.mask := mask_eq_iff.mpr fun k => ⟨h k, h' k⟩

theorem size_lt (h : s ⊆ t) (hne : t.mask ≠ s.mask) : s.size < t.size := by
  rw [size_eq_card, size_eq_card]
  refine Finset.card_lt_card ⟨toFinset_subset h, fun hback => hne (mask_eq_of_subset ?_ h)⟩
  intro k hk
  have hmem := @hback k
  rw [List.mem_toFinset, List.mem_toFinset, mem_toList, mem_toList] at hmem
  exact hmem hk

theorem size_le_of_lt {n : Nat} (h : ∀ k ∈ s, k < n) : s.size ≤ n := by
  have hsub : s.toList.toFinset ⊆ Finset.range n := by
    intro k hk
    rw [List.mem_toFinset, mem_toList] at hk
    exact Finset.mem_range.mpr (h k hk)
  rw [size_eq_card]
  exact (Finset.card_le_card hsub).trans_eq (Finset.card_range n)

end IndexSet

namespace Value

/-- How much the value allows. -/
def weight (v : Value) : Nat := v.type.rank + v.prod.size + v.slots.size

theorem weight_mono {v w : Value} (h : v ≤ w) : v.weight ≤ w.weight :=
  Nat.add_le_add (Nat.add_le_add (ValueType.rank_mono (type_le h)) (size_mono h.prod))
    (size_mono h.slots)

/-- A value that rises has more weight. -/
theorem weight_lt {v w : Value} (h : v ≤ w) (hne : w.equal v = false) : v.weight < w.weight := by
  have hrank := ValueType.rank_mono (type_le h)
  have hprod := size_mono h.prod
  have hslots := size_mono h.slots
  rw [weight, weight]
  -- one of the three components is not the same
  by_cases htype : v.type = w.type
  · by_cases hmask : w.prod.mask = v.prod.mask
    · have hmask' : w.slots.mask ≠ v.slots.mask := by
        intro heq
        rw [equal_iff.mpr ⟨htype.symm, hmask, heq⟩] at hne
        cases hne
      have := size_lt h.slots hmask'
      omega
    · have := size_lt h.prod hmask
      omega
  · have := ValueType.rank_lt (type_le h) htype
    omega

end Value

/-- How much a slot allows. -/
def slotWeight : Option Value → Nat
  | none => 0
  | some v => v.weight + 1

namespace Frame

/-- How much the frame allows. -/
def weight (f : Frame) : Nat := 1 + (f.stack.map Value.weight).sum + (f.locals.map slotWeight).sum

/-- A stack that grows has more weight. -/
theorem weight_mergeStacks {vs ws merged : List Value} {grew : Bool} (h : mergeStacks vs ws = (merged, .ok grew)) :
    (vs.map Value.weight).sum ≤ (merged.map Value.weight).sum ∧
      (grew = true → (vs.map Value.weight).sum < (merged.map Value.weight).sum) := by
  induction vs generalizing ws merged grew with
  | nil =>
    have heq : mergeStacks [] ws = ([], .ok false) := by cases ws <;> rfl
    rw [heq] at h
    obtain ⟨rfl, hgrew⟩ := Prod.mk.inj h
    obtain rfl := Except.ok.inj hgrew
    simp
  | cons v vs ih =>
    cases ws with
    | nil =>
      obtain ⟨rfl, hgrew⟩ := Prod.mk.inj h
      obtain rfl := Except.ok.inj hgrew
      simp
    | cons w ws =>
      rw [mergeStacks] at h
      split at h
      · simp at h
      · next rest grew' hrest =>
        obtain ⟨hle, hlt⟩ := ih hrest
        split at h
        · simp at h
        · obtain ⟨rfl, hgrew⟩ := Prod.mk.inj h
          obtain rfl := Except.ok.inj hgrew
          have hv := Value.weight_mono (Value.le_merge_left v w)
          simp only [List.map_cons, List.sum_cons]
          refine ⟨by omega, ?_⟩
          intro hgrew
          rcases Bool.or_eq_true_iff.mp hgrew with hgrew | hgrew
          · have := hlt hgrew
            omega
          · have := Value.weight_lt (Value.le_merge_left v w) (by simpa using hgrew)
            omega

/-- Merging slots loses no weight, and gains some if it is news. -/
theorem weight_mergeUnset (x y : Option Value) :
    slotWeight x ≤ slotWeight (mergeUnset x y).1 ∧
      ((mergeUnset x y).2 = true → slotWeight x < slotWeight (mergeUnset x y).1) := by
  cases y with
  | none => cases x <;> simp [mergeUnset]
  | some w =>
    cases x with
    | none => simp [mergeUnset, slotWeight]
    | some v =>
      have hle := Value.weight_mono (Value.le_merge_left v w)
      refine ⟨by simpa [mergeUnset, slotWeight] using hle, ?_⟩
      intro hgrew
      have := Value.weight_lt (Value.le_merge_left v w) (by simpa [mergeUnset] using hgrew)
      simpa [mergeUnset, slotWeight] using this

/-- Locals that grow have more weight. -/
theorem weight_mergeLocals (xs ys : List (Option Value)) :
    (xs.map slotWeight).sum ≤ ((mergeLocals xs ys).1.map slotWeight).sum ∧
      ((mergeLocals xs ys).2 = true → (xs.map slotWeight).sum < ((mergeLocals xs ys).1.map slotWeight).sum) := by
  induction ys generalizing xs with
  | nil => cases xs <;> simp [mergeLocals]
  | cons y ys ih =>
    cases xs with
    | nil =>
      have hrest := (ih []).2
      simp only [mergeLocals, List.map_nil, List.sum_nil, List.map_cons, List.sum_cons, Nat.zero_le, true_and,
        Bool.or_eq_true] at hrest ⊢
      rintro (hy | hy)
      · cases y with
        | none => cases hy
        | some w =>
          simp only [slotWeight]
          omega
      · have := hrest hy
        omega
    | cons x xs =>
      obtain ⟨hle, hlt⟩ := ih xs
      obtain ⟨hhead, hhead'⟩ := weight_mergeUnset x y
      simp only [mergeLocals, List.map_cons, List.sum_cons, Bool.or_eq_true]
      refine ⟨by omega, ?_⟩
      rintro (hx | hx)
      · have := hhead' hx
        omega
      · have := hlt hx
        omega

/-- A frame that changes where paths meet gains weight. -/
theorem weight_merge {f g merged : Frame} {changed : Bool} (h : f.merge g = (merged, .ok changed)) :
    f.weight ≤ merged.weight ∧ (changed = true → f.weight < merged.weight) := by
  obtain ⟨-, grew, hstacks, hlocals, hchanged⟩ := merge_ok h
  obtain ⟨hle, hlt⟩ := weight_mergeStacks hstacks
  obtain ⟨hle', hlt'⟩ := weight_mergeLocals f.locals g.locals
  rw [← hlocals] at hle' hlt'
  rw [weight, weight]
  refine ⟨by omega, ?_⟩
  intro hc
  rw [hchanged] at hc
  rcases Bool.or_eq_true_iff.mp hc with hgrew | hgrew
  · have := hlt hgrew
    omega
  · have := hlt' hgrew
    omega

end Frame

/-! ## What bounds a frame -/

/-- The producers are below `ids` and the slots below `slots`. -/
structure Value.Within (ids slots : Nat) (v : Value) : Prop where
  prod : ∀ k ∈ v.prod, k < ids
  slots : ∀ k ∈ v.slots, k < slots

/-- The values keep to the bounds, and there are at most `slots` local slots. -/
structure Frame.Within (ids slots : Nat) (f : Frame) : Prop where
  stack : ∀ v ∈ f.stack, v.Within ids slots
  locals : ∀ (k : Nat) (v : Value), f.localAt k = some v → v.Within ids slots
  length : f.locals.length ≤ slots

theorem IndexSet.mem_singleton {j k : Nat} : j ∈ singleton k ↔ k = j := by
  simp [singleton]

/-- The end of the slots that an instruction can set. -/
def Insn.slotEnd : Insn → Nat
  | .var _ slot | .iinc slot _ => slot.toNat + 2
  | _ => 0

section

variable {ids slots : Nat} {f g : Frame}

theorem Value.Within.weight_le {v : Value} (h : v.Within ids slots) : v.weight ≤ 3 + ids + slots :=
  Nat.add_le_add (Nat.add_le_add v.type.rank_le (size_le_of_lt h.prod)) (size_le_of_lt h.slots)

theorem Value.Within.merge {v w : Value} (hv : v.Within ids slots) (hw : w.Within ids slots) :
    (v.merge w).Within ids slots := by
  have hjoin := Value.isJoin_merge v w
  exact ⟨fun k hk => ((hjoin.prod k).mp hk).elim (hv.prod k) (hw.prod k),
    fun k hk => ((hjoin.slots k).mp hk).elim (hv.slots k) (hw.slots k)⟩

theorem Value.within_produced {t : ValueType} {id : Nat} (hid : id < ids) : (Value.produced t id).Within ids slots :=
  ⟨fun _ hk => mem_singleton.mp hk ▸ hid, fun k hk => by simp [Value.produced] at hk⟩

theorem Frame.Within.slotWeight_le (h : f.Within ids slots) {o : Option Value} (ho : o ∈ f.locals) :
    slotWeight o ≤ ids + slots + 4 := by
  cases o with
  | none => exact Nat.zero_le _
  | some v =>
    obtain ⟨k, hk⟩ := List.getElem?_of_mem ho
    have := (h.locals k v (by rw [Frame.localAt_natCast, hk]; rfl)).weight_le
    simp only [slotWeight]
    omega

/-- A frame that keeps to the bounds cannot grow beyond this. -/
theorem Frame.Within.weight_le (h : f.Within ids slots) :
    f.weight ≤ 1 + (f.stack.length + slots) * (ids + slots + 4) := by
  have hstack : (f.stack.map Value.weight).sum ≤ f.stack.length * (ids + slots + 4) := by
    have := List.sum_le_card_nsmul (f.stack.map Value.weight) (ids + slots + 4) fun n hn => by
      obtain ⟨v, hv, rfl⟩ := List.mem_map.mp hn
      have := (h.stack v hv).weight_le
      omega
    simpa using this
  have hlocals : (f.locals.map slotWeight).sum ≤ slots * (ids + slots + 4) := by
    have := List.sum_le_card_nsmul (f.locals.map slotWeight) (ids + slots + 4) fun n hn => by
      obtain ⟨o, ho, rfl⟩ := List.mem_map.mp hn
      exact h.slotWeight_le ho
    refine this.trans ?_
    rw [List.length_map, smul_eq_mul]
    exact Nat.mul_le_mul_right _ h.length
  rw [Frame.weight, Nat.add_mul]
  omega

theorem length_mergeLocals (xs ys : List (Option Value)) :
    (Frame.mergeLocals xs ys).1.length = max xs.length ys.length := by
  induction ys generalizing xs with
  | nil => cases xs <;> simp [Frame.mergeLocals]
  | cons y ys ih =>
    cases xs with
    | nil => simp [Frame.mergeLocals, ih]
    | cons x xs =>
      simp only [Frame.mergeLocals, List.length_cons, ih]
      omega

/-- The frame where two paths meet keeps to the bounds of both. -/
theorem Frame.Within.merge {merged : Frame} {changed : Bool} (hf : f.Within ids slots) (hg : g.Within ids slots)
    (h : f.merge g = (merged, .ok changed)) : merged.Within ids slots ∧ merged.stack.length = f.stack.length := by
  obtain ⟨hlength, grew, hstacks, hlocals, -⟩ := Frame.merge_ok h
  have hzip := (Frame.mergeStacks_ok hstacks hlength).1
  refine ⟨⟨?_, ?_, ?_⟩, by rw [hzip, List.length_zipWith, hlength, min_self]⟩
  · intro u hu
    rw [hzip, ← List.map_uncurry_zip_eq_zipWith] at hu
    obtain ⟨⟨v, w⟩, hvw, rfl⟩ := List.mem_map.mp hu
    exact (hf.stack v (List.of_mem_zip hvw).1).merge (hg.stack w (List.of_mem_zip hvw).2)
  · intro k u hu
    rcases Frame.localAt_of_merge h hu with hfk | hgk | ⟨v, w, hfk, hgk, rfl⟩
    · exact hf.locals k u hfk
    · exact hg.locals k u hgk
    · exact (hf.locals k v hfk).merge (hg.locals k w hgk)
  · rw [hlocals, length_mergeLocals]
    exact max_le hf.length hg.length

/-! ## What an instruction adds -/

/-- How many slots there are after a store. -/
theorem length_setLocal (locals : List (Option Value)) (slot : Nat) (v : Value) :
    (Step.setLocal locals slot v).length = max locals.length (slot + v.size) := by
  have hpadded : (locals ++ List.replicate (slot + v.size - locals.length) (none : Option Value)).length =
      max locals.length (slot + v.size) := by
    rw [List.length_append, List.length_replicate]
    omega
  cases slot with
  | zero =>
    simp only [Step.setLocal]
    split <;> simpa using hpadded
  | succ k =>
    simp only [Step.setLocal]
    -- no case of clearing the slot before changes the length
    split <;> split
    · split <;> simpa using hpadded
    · simpa using hpadded
    · split <;> simpa using hpadded
    · simpa using hpadded

/-- Where the slots of a store end. -/
theorem slotEnd_of_store {x : Insn} {op : Opcode} {t : ValueType} {k : Nat}
    (h : x.action? = some (.store op t k)) : x.slotEnd = k + 2 := by
  unfold Insn.action? at h
  split at h
  · split at h
    · cases h
    · split at h
      · cases h
      · simp at h
  · obtain ⟨u, -, hu⟩ := Option.map_eq_some_iff.mp h
    split at hu
    · cases hu
    · obtain ⟨-, -, rfl⟩ := Action.store.inj hu
      rfl
  · cases h
  · split at h <;> cases h
  · simp at h
  · simp at h

theorem picks?_length {op : Opcode} {wide : List Bool} {picks : List Nat} (h : Step.picks? op wide = some picks) :
    picks.length ≤ wide.length + 2 := by
  unfold Step.picks? at h
  split at h <;> cases h <;> simp

/-- An instruction keeps to the bounds that its own id and slot keep to, and leaves at most two more entries on the
stack than it finds there. -/
theorem step_within {id : Nat} {x : Insn} {r : StepResult} (h : step id x f = .ok r) (hf : f.Within ids slots)
    (hid : id < ids) (hx : x.slotEnd ≤ slots) :
    r.frame.Within ids slots ∧ r.frame.stack.length ≤ f.stack.length + 2 := by
  obtain ⟨act, hact, heffect⟩ := Action.of_step h
  cases heffect with
  | @exchange g counted taken rest hstack hsizes =>
    have hrest : ∀ v ∈ rest, v.Within ids slots := fun v hv => hf.stack v (by simp [hstack, hv])
    refine ⟨⟨?_, hf.locals, hf.length⟩, ?_⟩
    · intro v hv
      rcases List.mem_append.mp hv with hv | hv
      · obtain ⟨t, -, rfl⟩ := Option.map_eq_some_iff.mp (Option.mem_toList.mp hv)
        exact Value.within_produced hid
      · exact hrest v hv
    · have hone : (g.gives.map (Value.produced · id)).toList.length ≤ 1 := by cases g.gives <;> simp
      simp only [hstack, List.length_append]
      omega
  | @drop words dropped rest hwords =>
    have hstack := Step.popWords_ok hwords
    refine ⟨⟨fun v hv => hf.stack v (by simp [hstack, hv]), hf.locals, hf.length⟩, ?_⟩
    simp only [hstack, List.length_append]
    omega
  | @move op top top' rest hstack hmove =>
    refine ⟨⟨?_, hf.locals, hf.length⟩, ?_⟩
    · intro v hv
      rcases List.mem_append.mp hv with hv | hv
      · exact hf.stack v (by simp [hstack, hmove.mem hv])
      · exact hf.stack v (by simp [hstack, hv])
    · obtain ⟨picks, hpicks, rfl⟩ := hmove
      have hlength := picks?_length hpicks
      have := List.length_filterMap_le (top[·]?) picks
      rw [List.length_map] at hlength
      simp only [hstack, List.length_append]
      omega
  | @load op t k v ht hv hsize =>
    have hk := Frame.lt_length_of_localAt hv
    refine ⟨⟨?_, hf.locals, hf.length⟩, by simp⟩
    intro u hu
    rcases List.mem_cons.mp hu with rfl | hu
    · exact ⟨fun j hj => mem_singleton.mp hj ▸ hid,
        fun j hj => mem_singleton.mp hj ▸ lt_of_lt_of_le hk hf.length⟩
    · exact hf.stack u hu
  | @store op t k v rest ht hstack hsize =>
    rw [slotEnd_of_store hact] at hx
    have hv := hf.stack v (by simp [hstack])
    refine ⟨⟨fun u hu => hf.stack u (by simp [hstack, hu]), ?_, ?_⟩, ?_⟩
    · intro j u hu
      have hpos : 0 < Value.size ⟨v.type, v.prod, .singleton k⟩ := hsize ▸ Action.varType?_size_pos ht
      rw [Frame.localAt_natCast, Step.join_getElem?_setLocal _ _ _ hpos] at hu
      split at hu
      · obtain rfl := Option.some.inj hu
        exact ⟨hv.prod, fun i hi => mem_singleton.mp hi ▸ by omega⟩
      · split at hu
        · cases hu
        · split at hu
          · cases hu
          · exact hf.locals j u hu
    · rw [length_setLocal]
      have : Value.size ⟨v.type, v.prod, .singleton k⟩ ≤ 2 := ValueType.size_le_two v.type
      exact max_le hf.length (by omega)
    · simp only [hstack, List.length_cons]
      omega
  | @increment k v hv hint =>
    have hk := Frame.lt_length_of_localAt hv
    refine ⟨⟨hf.stack, ?_, by simpa using hf.length⟩, by simp⟩
    intro j u hu
    rw [Frame.localAt_natCast, Step.join_getElem?_set hk] at hu
    split at hu
    · obtain rfl := Option.some.inj hu
      exact ⟨fun i hi => mem_singleton.mp hi ▸ hid,
        fun i hi => mem_singleton.mp hi ▸ lt_of_lt_of_le hk hf.length⟩
    · exact hf.locals j u hu

end

/-! ## What bounds a state -/

theorem sum_map_set {α : Type} (w : α → Nat) {l : List α} {i : Nat} {a : α} (h : l[i]? = some a) (b : α) :
    ((l.set i b).map w).sum + w a = (l.map w).sum + w b := by
  induction l generalizing i with
  | nil => simp at h
  | cons c l ih =>
    cases i with
    | zero =>
      obtain rfl : c = a := by simpa using h
      simp only [List.set_cons_zero, List.map_cons, List.sum_cons]
      omega
    | succ i =>
      have := ih (i := i) (by simpa using h)
      simp only [List.set_cons_succ, List.map_cons, List.sum_cons]
      omega

/-- The ids and slots that a layout can bring up keep to the bounds. -/
structure Layout.Sized (l : Layout) (ids slots : Nat) : Prop where
  line : ∀ (p : Nat) (id : InsnId) (x : Insn), l.lines[p]? = some (id, x) → id.toNat < ids ∧ x.slotEnd ≤ slots
  position : ∀ (id : InsnId) (q : Nat), l.position? id = some q → id.toNat < ids

namespace FlowState

variable {l : Layout} {ids slots : Nat} {s s' : FlowState} {source : InsnId} {p : Nat} {f : Frame}

/-- The sum over all positions of something that depends on what is known there. -/
def total (w : Option Frame → Nat) (s : FlowState) : Nat := (s.frames.toList.map w).sum

/-- How much the state allows. -/
def weight (s : FlowState) : Nat := s.total fun o => (o.map Frame.weight).getD 0

/-- The number of positions that were reached. -/
def count (s : FlowState) : Nat := s.total fun o => if o.isSome then 1 else 0

theorem total_set (w : Option Frame → Nat) {known : Option Frame} (h : s.frames[p]? = some known) (g : Option Frame)
    (queue : List Nat) : total w ⟨s.frames.setIfInBounds p g, queue⟩ + w known = s.total w + w g := by
  rw [total, total, Array.toList_setIfInBounds]
  exact sum_map_set w (by simpa using h) g

theorem total_le {w : Option Frame → Nat} {n : Nat} (h : ∀ (p : Nat) (o : Option Frame), s.frames[p]? = some o → w o ≤ n) :
    s.total w ≤ s.frames.size * n := by
  have := List.sum_le_card_nsmul (s.frames.toList.map w) n fun k hk => by
    obtain ⟨o, ho, rfl⟩ := List.mem_map.mp hk
    obtain ⟨p, hp⟩ := List.getElem?_of_mem ho
    exact h p o (by simpa using hp)
  simpa [total] using this

theorem count_le (s : FlowState) : s.count ≤ s.frames.size := by
  have := total_le (s := s) (w := fun o => if o.isSome then 1 else 0) (n := 1) fun _ o _ => by split <;> omega
  simpa [count] using this

theorem length_queue_enqueue (s : FlowState) (p : Nat) : (s.enqueue p).queue.length ≤ s.queue.length + 1 := by
  rw [enqueue]
  split
  · omega
  · exact (length_insertSorted _ p s.queue).le

/-- A frame that is news where it flows to gains weight. -/
theorem flow_gains (hflow : s.flow l source (some p) f = .ok s') :
    ∃ known g changed, s.frames[p]? = some known ∧ f.Joins known g changed ∧
      s' = ⟨s.frames.setIfInBounds p (some g), if changed then (s.enqueue p).queue else s.queue⟩ ∧
      s.weight + (if changed then 1 else 0) ≤ s'.weight := by
  obtain ⟨known, g, changed, hknown, hjoins, rfl⟩ := flow_ok hflow
  refine ⟨known, g, changed, hknown, hjoins, rfl, ?_⟩
  have hweight := total_set (fun o => (o.map Frame.weight).getD 0) hknown (some g)
    (if changed then (s.enqueue p).queue else s.queue)
  simp only [weight]
  cases hjoins with
  | fresh =>
    have hpos : 1 ≤ f.weight := by
      rw [Frame.weight]
      omega
    simp only [Option.map_none, Option.getD_none, Option.map_some, Option.getD_some] at hweight
    simp only [if_true] at hweight ⊢
    omega
  | meets hmerge =>
    obtain ⟨hle, hlt⟩ := Frame.weight_merge hmerge
    simp only [Option.map_some, Option.getD_some] at hweight
    cases changed with
    | false =>
      simp only [Bool.false_eq_true, if_false] at hweight ⊢
      omega
    | true =>
      have := hlt rfl
      simp only [if_true] at hweight ⊢
      omega

/-- Whenever a position is queued, weight is gained. -/
theorem flow_weight (hflow : s.flow l source (some p) f = .ok s') :
    s'.queue.length + s.weight ≤ s.queue.length + s'.weight := by
  obtain ⟨known, g, changed, -, -, rfl, hgain⟩ := flow_gains hflow
  have hqueue := length_queue_enqueue s p
  cases changed with
  | false =>
    simp only [Bool.false_eq_true, if_false] at hgain ⊢
    omega
  | true =>
    simp only [if_true] at hgain ⊢
    omega

/-- All frames keep to the bounds, and no stack is higher than twice the number of other positions reached. -/
structure Bounded (ids slots : Nat) (s : FlowState) : Prop where
  within : ∀ (p : Nat) (f : Frame), s.frames[p]? = some (some f) → f.Within ids slots
  height : ∀ (p : Nat) (f : Frame), s.frames[p]? = some (some f) → f.stack.length + 2 ≤ 2 * s.count

/-- Flowing keeps to the bounds. -/
theorem Bounded.flow (hs : s.Bounded ids slots) (hf : f.Within ids slots) (hheight : f.stack.length ≤ 2 * s.count)
    (hflow : s.flow l source (some p) f = .ok s') : s'.Bounded ids slots ∧ s.count ≤ s'.count := by
  obtain ⟨known, g, changed, hknown, hjoins, rfl⟩ := flow_ok hflow
  have hcount := total_set (fun o => if o.isSome then 1 else 0) hknown (some g)
    (if changed then (s.enqueue p).queue else s.queue)
  -- it is enough to look at the position that the frame flows to
  suffices h : (g.Within ids slots ∧ g.stack.length + 2 ≤
      2 * count ⟨s.frames.setIfInBounds p (some g), if changed then (s.enqueue p).queue else s.queue⟩) ∧
      s.count ≤ count ⟨s.frames.setIfInBounds p (some g), if changed then (s.enqueue p).queue else s.queue⟩ by
    refine ⟨⟨fun q g' hg' => ?_, fun q g' hg' => ?_⟩, h.2⟩
    · rcases frame_of_set hg' with ⟨rfl, rfl⟩ | hq
      · exact h.1.1
      · exact hs.within q g' hq
    · rcases frame_of_set hg' with ⟨rfl, rfl⟩ | hq
      · exact h.1.2
      · have := hs.height q g' hq
        have := h.2
        omega
  simp only [count]
  cases hjoins with
  | fresh =>
    simp only [Option.isSome_none, Option.isSome_some, Bool.false_eq_true, if_false, if_true] at hcount ⊢
    rw [count] at hheight
    exact ⟨⟨hf, by omega⟩, by omega⟩
  | meets hmerge =>
    obtain ⟨hwithin, hlength⟩ := (hs.within p _ hknown).merge hf hmerge
    have := hs.height p _ hknown
    rw [count] at this
    simp only [Option.isSome_some, if_true] at hcount
    exact ⟨⟨hwithin, by omega⟩, by omega⟩

/-- Each frame that is sent pays for its place in the queue. -/
theorem Bounded.sends {x : Insn} {after : Frame} (hl : l.Sized ids slots) (hs : s.Bounded ids slots)
    (hf : s.frames[p]? = some (some f)) (hafter : after.Within ids slots) (hheight : after.stack.length ≤ 2 * s.count)
    (hsends : Sends l p source x after s s') :
    s'.Bounded ids slots ∧ s.count ≤ s'.count ∧ s'.queue.length + s.weight ≤ s.queue.length + s'.weight := by
  induction hsends with
  | refl => exact ⟨hs, le_refl _, le_refl _⟩
  | @step s' s'' q h hsends hflows hflow ih =>
    obtain ⟨hbounded, hcount, hweight⟩ := ih
    obtain ⟨f', hf', -⟩ := hsends.extends.grows p f hf
    have hbefore := hbounded.within p f' hf'
    have hone := hbounded.height p f' hf'
    have hgain := flow_weight hflow
    have hframe : h.Within ids slots ∧ h.stack.length ≤ 2 * s'.count := by
      cases hflows with
      | branch => exact ⟨hafter, by omega⟩
      | next => exact ⟨hafter, by omega⟩
      | @raise e _ locals _ _ hq hlocals =>
        have hlocals' : Frame.Within ids slots ⟨[], locals⟩ := by
          rcases hlocals with rfl | rfl
          · rw [localsAt_eq hf']
            exact ⟨by simp, hbefore.locals, hbefore.length⟩
          · exact ⟨by simp, hafter.locals, hafter.length⟩
        refine ⟨⟨?_, hlocals'.locals, hlocals'.length⟩, by simp only [Handler.entry, List.length_singleton]; omega⟩
        intro v hv
        obtain rfl := List.mem_singleton.mp hv
        exact Value.within_produced (hl.position _ _ hq)
    obtain ⟨hnext, hmore⟩ := hbounded.flow hframe.1 hframe.2 hflow
    exact ⟨hnext, by omega, by omega⟩

/-- A visit keeps to the bounds, and gains weight with every position that it queues. -/
theorem Bounded.visit (hl : l.Sized ids slots) (hs : s.Bounded ids slots) (hvisit : s.visit l p = .ok s') :
    s'.Bounded ids slots ∧ s'.queue.length + s.weight ≤ s.queue.length + s'.weight := by
  obtain ⟨id, x, f, r, hline, hf, hstep, hsends, -⟩ := visit_ok hvisit
  obtain ⟨hid, hslot⟩ := hl.line p id x hline
  obtain ⟨hafter, hmore⟩ := step_within hstep (hs.within p f hf) hid hslot
  have hheight := hs.height p f hf
  obtain ⟨hbounded, -, hweight⟩ := hs.sends hl hf hafter (by omega) hsends
  exact ⟨hbounded, hweight⟩

/-- A state within bounds has a bounded weight. -/
theorem Bounded.weight_le (hs : s.Bounded ids slots) :
    s.weight ≤ s.frames.size * (1 + (2 * s.frames.size + slots) * (ids + slots + 4)) := by
  apply total_le
  intro p o ho
  cases o with
  | none => exact Nat.zero_le _
  | some f =>
    have hheight : f.stack.length ≤ 2 * s.frames.size := by
      have := hs.height p f ho
      have := s.count_le
      omega
    calc f.weight ≤ 1 + (f.stack.length + slots) * (ids + slots + 4) := (hs.within p f ho).weight_le
      _ ≤ 1 + (2 * s.frames.size + slots) * (ids + slots + 4) := by gcongr

/-- A run stops because nothing is left to be looked at, or because a visit fails, in a state of which `P` holds. -/
def Ends (l : Layout) (P : FlowState → Prop) (outcome : Outcome FlowError FlowState) : Prop :=
  (∃ s, P s ∧ s.queue = [] ∧ outcome = .ok s) ∨
    ∃ s p rest e, P s ∧ s.queue = p :: rest ∧ visit l p { s with queue := rest } = .error e ∧ outcome = .error e

/-- With as many visits as weight can be gained, a run is not cut short. -/
theorem run_ends (hl : l.Sized ids slots) {P : FlowState → Prop}
    (hturn : ∀ s p rest s', P s → s.queue = p :: rest → visit l p { s with queue := rest } = .ok s' → P s')
    {fuel n : Nat} (hs : s.Bounded ids slots) (hn : s.frames.size = n)
    (hfuel : s.queue.length + n * (1 + (2 * n + slots) * (ids + slots + 4)) ≤ fuel + s.weight) (h : P s) :
    Ends l P (s.run l fuel) := by
  induction fuel generalizing s with
  | zero =>
    have := hs.weight_le
    rw [hn] at this
    exact .inl ⟨s, h, List.length_eq_zero_iff.mp (by omega), rfl⟩
  | succ fuel ih =>
    rw [run]
    cases hqueue : s.queue with
    | nil => exact .inl ⟨s, h, hqueue, rfl⟩
    | cons p rest =>
      cases hvisit : visit l p { s with queue := rest } with
      | error e => exact .inr ⟨s, p, rest, e, h, hqueue, hvisit, by simp only [hvisit]⟩
      | ok s₁ =>
        have hpopped : Bounded ids slots { s with queue := rest } := ⟨hs.within, hs.height⟩
        obtain ⟨hbounded, hweight⟩ := hpopped.visit hl hvisit
        obtain ⟨_, _, _, _, -, -, -, hsends, -⟩ := visit_ok hvisit
        have hsame : weight { s with queue := rest } = s.weight := rfl
        rw [hqueue, List.length_cons] at hfuel
        simp only [hvisit]
        exact ih hbounded (hsends.extends.size.trans hn) (by simp only [hsame] at hweight; omega)
          (hturn s p rest s₁ h hqueue hvisit)

end FlowState

/-! ## The analysis explores until nothing is left -/

theorem Layout.size_index (m : Method) : (Layout.ofMethod m).index.size = m.code.nodes.size := m.code.size_index

theorem Layout.slotBound_eq (l : Layout) :
    l.slotBound = l.lines.toList.foldl (fun n line => max n line.2.slotEnd) 0 := by
  rw [slotBound, ← Array.foldl_toList]
  congr
  funext n line
  obtain ⟨id, x⟩ := line
  cases x <;> simp [Insn.slotEnd]

theorem le_foldl_max {α : Type} (w : α → Nat) (l : List α) (n : Nat) :
    n ≤ l.foldl (fun n a => max n (w a)) n ∧ ∀ a ∈ l, w a ≤ l.foldl (fun n a => max n (w a)) n := by
  induction l generalizing n with
  | nil => simp
  | cons a l ih =>
    obtain ⟨hle, hrest⟩ := ih (max n (w a))
    rw [List.foldl_cons]
    refine ⟨by omega, ?_⟩
    intro b hb
    rcases List.mem_cons.mp hb with rfl | hb
    · omega
    · exact hrest b hb

variable {l : Layout} {m : Method}

theorem Layout.slotEnd_le_slotBound {p : Nat} {id : InsnId} {x : Insn} (h : l.lines[p]? = some (id, x)) :
    x.slotEnd ≤ l.slotBound := by
  rw [slotBound_eq]
  exact (le_foldl_max (fun line => line.2.slotEnd) l.lines.toList 0).2 (id, x)
    (List.mem_of_getElem? (i := p) (by simpa using h))

/-- The ids and slots that a method names. -/
theorem Layout.sized (m : Method) (params : Nat) :
    (Layout.ofMethod m).Sized (Layout.ofMethod m).index.size (max params (Layout.ofMethod m).slotBound) := by
  refine ⟨?_, ?_⟩
  · intro p id x hline
    have hmem : (id, x) ∈ m.code.listing := List.mem_of_getElem? (i := p) (by simpa [Layout.ofMethod] using hline)
    obtain ⟨hnonneg, hget⟩ := Code.nonneg_of_mem_listing hmem
    obtain ⟨n, hnode, -⟩ := Option.map_eq_some_iff.mp hget
    have hlt := (Code.lt_size_of_node? hnode).2
    rw [size_index]
    exact ⟨(Int.toNat_lt hnonneg).mpr hlt, (slotEnd_le_slotBound hline).trans (le_max_right _ _)⟩
  · intro id q hq
    unfold Layout.position? at hq
    split at hq
    · next k =>
      split at hq
      · next hindex => exact (Array.getElem?_eq_some_iff.mp hindex).1
      · cases hq
    · cases hq

/-- The state in which a method is entered with a frame. -/
def FlowState.start (l : Layout) (f : Frame) : FlowState :=
  ⟨(Array.replicate l.lines.size none).setIfInBounds 0 (some f), [0]⟩

/-- The start keeps to the bounds. -/
theorem FlowState.bounded_start {ids slots : Nat} {f : Frame} (hl : 0 < l.lines.size)
    (hf : f.Within ids slots) (hstack : f.stack = []) : (start l f).Bounded ids slots := by
  have hcount : (start l f).count = 1 := by
    have hzero : count ⟨Array.replicate l.lines.size none, []⟩ = 0 := by simp [count, total]
    have hnone : (Array.replicate l.lines.size (none : Option Frame))[0]? = some none := by simp [hl]
    have := total_set (s := ⟨Array.replicate l.lines.size none, []⟩) (fun o => if o.isSome then 1 else 0) hnone
      (some f) [0]
    simp only [count] at hzero
    rw [hzero] at this
    simpa [start, count] using this
  have hframe : ∀ (p : Nat) (g : Frame), (start l f).frames[p]? = some (some g) → g = f := by
    intro p g hg
    rw [start, Array.getElem?_setIfInBounds, Array.getElem?_replicate] at hg
    split at hg
    · split at hg
      · exact (Option.some.inj (Option.some.inj hg)).symm
      · cases hg
    · split at hg <;> cases hg
  refine ⟨fun p g hg => hframe p g hg ▸ hf, fun p g hg => ?_⟩
  rw [hframe p g hg, hstack, hcount]
  rfl

/-- So do the parameters. -/
theorem Analysis.entry_within (params : List ValueType) {ids slots : Nat} (h : params.length ≤ slots) :
    (entry params).Within ids slots := by
  refine ⟨by simp [entry], ?_, by simpa [entry] using h⟩
  intro k v hv
  simp only [entry, Frame.localAt_natCast, List.getElem?_map, List.getElem?_zipIdx] at hv
  cases hk : params[k]? with
  | none => simp [hk] at hv
  | some t =>
    have hlt := (List.getElem?_eq_some_iff.mp hk).1
    simp only [hk, Option.map_some, Option.join_some] at hv
    split at hv
    · cases hv
    · obtain rfl := Option.some.inj hv
      refine ⟨fun j hj => ?_, fun j hj => ?_⟩
      · simp at hj
      · have := mem_singleton.mp hj
        omega

/-- The bound on visits leaves room for all the weight that can be gained. -/
theorem Layout.visitBound_ge (l : Layout) (params : Nat) :
    l.lines.size * (1 + (2 * l.lines.size + max params l.slotBound) * (l.index.size + max params l.slotBound + 4)) + 1 ≤
      l.visitBound params := by
  have hproduct := Nat.mul_le_mul
    (show 2 * l.lines.size + max params l.slotBound ≤ 2 * l.lines.size + (max params l.slotBound + 1) + 2 by omega)
    (show l.index.size + max params l.slotBound + 4 ≤
      l.index.size + (max params l.slotBound + 1) + l.lines.size + 8 by omega)
  exact Nat.add_le_add_right (Nat.mul_le_mul_left l.lines.size (Nat.add_le_add_left hproduct 1)) 1

/-- The loop of the analysis of a method, from its parameters on. -/
def Analysis.loop (m : Method) (params : List ValueType) : Outcome FlowError FlowState :=
  (FlowState.start (.ofMethod m) (entry params)).run (.ofMethod m) ((Layout.ofMethod m).visitBound params.length)

/-- The loop of the analysis is not cut short, and what every turn keeps holds where it ends. -/
theorem Analysis.loop_ends (hcode : m.code.listing ≠ []) (params : List ValueType) {P : FlowState → Prop}
    (hturn : ∀ s p rest s', P s → s.queue = p :: rest →
      FlowState.visit (.ofMethod m) p { s with queue := rest } = .ok s' → P s')
    (h : P (.start (.ofMethod m) (entry params))) : FlowState.Ends (.ofMethod m) P (loop m params) := by
  have hpos : 0 < (Layout.ofMethod m).lines.size := by
    simpa [Layout.ofMethod] using List.length_pos_iff.mpr hcode
  refine FlowState.run_ends (Layout.sized m params.length) hturn
    (FlowState.bounded_start hpos (entry_within params (le_max_left _ _)) rfl) (n := (Layout.ofMethod m).lines.size)
    (by simp [FlowState.start]) ?_ h
  have hbound := Layout.visitBound_ge (.ofMethod m) params.length
  have hqueue : (FlowState.start (.ofMethod m) (entry params)).queue.length = 1 := rfl
  omega

/-- A method that has code is entered with its parameters. -/
theorem FlowState.flow_start (hl : 0 < l.lines.size) (f : Frame) :
    flow l .none (some 0) f ⟨Array.replicate l.lines.size none, []⟩ = .ok (start l f) := by
  simp only [flow, Array.getElem?_replicate, hl, if_true]
  rfl

/-- The analysis of a method that has code fails with its loop or with the results, or has the frames of the loop. -/
theorem Analysis.ofMethod_of_loop {owner : Text} {params : List ValueType}
    (hparams : m.params owner = .ok params) (hcode : m.code.listing ≠ []) :
    (∀ e, loop m params = .error e → ofMethod owner m = .error e) ∧
      ∀ s, loop m params = .ok s → (∀ a, ofMethod owner m = .ok a → a.before = s.frames) ∧
        ∀ x, ofMethod owner m = .error x → results ((Layout.ofMethod m).lines.toList.zip s.frames.toList) = .error x := by
  have hpos : 0 < (Layout.ofMethod m).lines.size := by
    simpa [Layout.ofMethod] using List.length_pos_iff.mpr hcode
  have hnonempty : ¬ (Layout.ofMethod m).lines.isEmpty = true := by simpa [Layout.ofMethod] using hcode
  constructor
  · intro e hloop
    rw [loop] at hloop
    simp only [ofMethod, if_neg hnonempty, hparams, Outcome.ofExcept, bind, Except.bind, FlowState.flow_start hpos, hloop]
  · intro s hloop
    rw [loop] at hloop
    refine ⟨fun a h => ?_, fun x h => ?_⟩ <;>
      simp only [ofMethod, if_neg hnonempty, hparams, Outcome.ofExcept, bind, Except.bind, FlowState.flow_start hpos,
        hloop] at h
    · obtain ⟨rs, -, h⟩ := except_bind_ok.mp h
      obtain rfl := Except.ok.inj h
      rfl
    · rcases except_bind_error.mp h with h | ⟨rs, -, h⟩
      · exact h
      · cases h

/-- The analysis of a method that has code explores it from its parameters until nothing is left. -/
theorem Analysis.ofMethod_explores {owner : Text} {a : Analysis} (h : ofMethod owner m = .ok a) {params}
    (hparams : m.params owner = .ok params) (hcode : m.code.listing ≠ []) :
    ∃ s, FlowState.Explores (.ofMethod m) (.start (.ofMethod m) (entry params)) s ∧ s.queue = [] ∧ a.before = s.frames := by
  rcases loop_ends (P := FlowState.Explores (.ofMethod m) (.start (.ofMethod m) (entry params))) hcode params
      (fun _ _ _ _ hs hqueue hvisit => hs.turn hqueue hvisit) (.refl _) with
    ⟨s, hexplores, hqueue, hloop⟩ | ⟨-, -, -, e, -, -, -, hloop⟩
  · exact ⟨s, hexplores, hqueue, ((ofMethod_of_loop hparams hcode).2 s hloop).1 a h⟩
  · rw [(ofMethod_of_loop hparams hcode).1 e hloop] at h
    cases h

end CoordSplit
