import CoordSplit.SlotMap
import CoordSplit.Proofs.IndexSets

/-!
# Where slots go

The place of a slot is the slot plus the number of expanded slots below it. Places keep the order of slots,
and the three slots that an expanded slot becomes are free of every place but those of the slot itself and
of the one behind it (`place_add_three_le`). An instruction that the map accepts uses neither as anything
but a long, so after the move the slots of accepted instructions are either the start of such a triple
(`Accepted.same_or_apart`) or outside of all of them (`Accepted.outside`).
-/

set_option autoImplicit false

namespace CoordSplit

namespace IndexSet

variable {k : Int}

/-- Every member that is counted below `k` is counted below a greater bound. -/
theorem countBelow_mono (s : IndexSet) {j : Int} (h : j ≤ k) : s.countBelow j ≤ s.countBelow k := by
  apply List.countP_mono_left
  intro m _ hm
  simp only [decide_eq_true_eq] at hm ⊢
  omega

/-- A member is counted below every greater bound, besides the members below itself. -/
theorem countBelow_lt (s : IndexSet) {e : Nat} (he : e ∈ s) (h : (e : Int) < k) :
    s.countBelow e + 1 ≤ s.countBelow k := by
  have hmem : e ∈ s.toList := mem_toList.mpr he
  obtain ⟨a, b, hab⟩ := List.append_of_mem hmem
  have ha : a.countP (fun (m : Nat) => decide ((m : Int) < e)) ≤ a.countP fun (m : Nat) => decide ((m : Int) < k) := by
    apply List.countP_mono_left
    intro m _ hm
    simp only [decide_eq_true_eq] at hm ⊢
    omega
  have hb : b.countP (fun (m : Nat) => decide ((m : Int) < e)) ≤ b.countP fun (m : Nat) => decide ((m : Int) < k) := by
    apply List.countP_mono_left
    intro m _ hm
    simp only [decide_eq_true_eq] at hm ⊢
    omega
  simp only [countBelow, hab, List.countP_append, List.countP_cons, lt_irrefl, decide_false, h, decide_true]
  simp only [Bool.false_eq_true, if_false, if_true]
  omega

/-- Nothing is counted below zero. -/
theorem countBelow_of_nonpos (s : IndexSet) (h : k ≤ 0) : s.countBelow k = 0 := by
  rw [countBelow, List.countP_eq_zero]
  intro m _
  simp only [decide_eq_true_eq]
  omega

/-- No more members are counted below a bound than there are numbers. -/
theorem countBelow_le (s : IndexSet) (h : 0 ≤ k) : (s.countBelow k : Int) ≤ k := by
  have hsub : s.toList.filter (fun (m : Nat) => decide ((m : Int) < k)) ⊆ List.range k.toNat := by
    intro m hm
    have hlt := of_decide_eq_true (List.mem_filter.mp hm).2
    exact List.mem_range.mpr (by omega)
  have hlength := (List.subperm_of_subset (s.toList_nodup.filter _) hsub).length_le
  rw [List.length_range] at hlength
  rw [countBelow, List.countP_eq_length_filter]
  omega

end IndexSet

namespace SlotMap

open IndexSet

variable {s e : Int} {E : IndexSet} {op : Opcode}

/-- Places keep the order of slots. -/
theorem place_lt_place (E : IndexSet) {t : Int} (h : s < t) : place E s < place E t := by
  have := E.countBelow_mono (le_of_lt h)
  unfold place
  omega

theorem place_inj (E : IndexSet) {t : Int} (h : place E s = place E t) : s = t := by
  rcases lt_trichotomy s t with hlt | heq | hgt
  · have := place_lt_place E hlt
    omega
  · exact heq
  · have := place_lt_place E hgt
    omega

/-- A slot two behind an expanded one goes behind all three slots that it becomes. -/
theorem place_add_three_le (E : IndexSet) (he : E.contains e = true) (h : e + 2 ≤ s) : place E e + 3 ≤ place E s := by
  obtain ⟨k, rfl, hk⟩ := (E.contains_iff e).mp he
  have := E.countBelow_lt hk (show (k : Int) < s by omega)
  unfold place
  omega

theorem place_of_nonpos (E : IndexSet) (h : s ≤ 0) : place E s = s := by
  rw [place, E.countBelow_of_nonpos h]
  simp

theorem le_place (E : IndexSet) (s : Int) : s ≤ place E s := by
  unfold place
  omega

/-- The first slots are the places of the expanded ones. -/
theorem isFirst_iff (E : IndexSet) (n : Int) :
    (ofSlots E).isFirst n = true ↔ ∃ e, E.contains e = true ∧ n = place E e := by
  rw [isFirst, contains_iff]
  constructor
  · rintro ⟨j, rfl, hj⟩
    rw [mem_iff, ofSlots, testBit_foldl_insert fun k => (place E k).toNat] at hj
    rcases hj with hj | ⟨k, hk, hj⟩
    · exact absurd hj (by simp)
    · refine ⟨k, mem_toList.mp hk, ?_⟩
      rw [← hj, Int.toNat_of_nonneg]
      exact le_trans (Int.natCast_nonneg k) (le_place E k)
  · rintro ⟨e, he, rfl⟩
    obtain ⟨k, rfl, hk⟩ := (E.contains_iff e).mp he
    refine ⟨(place E k).toNat, ?_, ?_⟩
    · rw [Int.toNat_of_nonneg]
      exact le_trans (Int.natCast_nonneg k) (le_place E k)
    · rw [mem_iff, ofSlots, testBit_foldl_insert fun k => (place E k).toNat]
      exact .inr ⟨k, mem_toList.mpr hk, rfl⟩

/-- A place is a first slot iff its slot is expanded. -/
theorem isFirst_place (E : IndexSet) (s : Int) : (ofSlots E).isFirst (place E s) = E.contains s := by
  rw [Bool.eq_iff_iff, isFirst_iff]
  constructor
  · rintro ⟨e, he, heq⟩
    rw [place_inj E heq]
    exact he
  · intro hs
    exact ⟨s, hs, rfl⟩

/-! ## New slots -/

/-- The new slot is the place, unless the place is past the greatest slot. Then it comes round to a negative one. -/
theorem map_cases (E : IndexSet) (s : Int) :
    (ofSlots E).map s = place E s ∨
      s < Slot.limit ∧ Slot.limit ≤ place E s ∧ (ofSlots E).map s = place E s - 2 * Slot.limit ∧
        (ofSlots E).map s < 0 := by
  change Slot.up s (E.countBelow s) = s + E.countBelow s ∨ s < Slot.limit ∧ Slot.limit ≤ s + E.countBelow s ∧
    Slot.up s (E.countBelow s) = s + E.countBelow s - 2 * Slot.limit ∧ Slot.up s (E.countBelow s) < 0
  rw [Slot.up]
  split
  · next h =>
    have hle : 0 ≤ s → (E.countBelow s : Int) ≤ s := E.countBelow_le
    have hzero : s ≤ 0 → E.countBelow s = 0 := E.countBelow_of_nonpos
    exact .inr ⟨h.1, h.2, rfl, by omega⟩
  · exact .inl rfl

/-- A slot whose place is a slot is moved there. -/
theorem map_eq_place (h : place E s < Slot.limit) : (ofSlots E).map s = place E s := by
  rcases map_cases E s with heq | ⟨-, hle, -⟩
  · exact heq
  · omega

/-- A slot that is moved to its place has one that is a slot. -/
theorem lt_of_map_eq_place (hs : s < Slot.limit) (h : (ofSlots E).map s = place E s) : place E s < Slot.limit := by
  by_contra hnot
  change Slot.up s (E.countBelow s) = s + E.countBelow s at h
  rw [Slot.up, if_pos ⟨hs, le_of_not_gt hnot⟩] at h
  have hlimit : Slot.limit = 9223372036854775808 := rfl
  omega

/-- In 64 bits, the new slot is the place. -/
theorem map_eq_bmod (hmin : -Slot.limit ≤ s) (hmax : s < Slot.limit) :
    (ofSlots E).map s = (place E s).bmod (2 ^ 64) := by
  have hlimit : Slot.limit = 9223372036854775808 := rfl
  have hle := le_place E s
  rcases map_cases E s with heq | ⟨-, hover, heq, hneg⟩
  · have hlt := lt_of_map_eq_place hmax heq
    rw [heq, Int.bmod_eq_of_le_mul_two] <;> omega
  · rw [heq, ← Int.sub_bmod_right, Int.bmod_eq_of_le_mul_two] <;> omega

/-! ## Accepted accesses -/

/-- What a set of expanded slots asks of a load or a store by `op` of slot `s`: it moves an expanded slot
as a whole, and no second word of one. -/
structure Accepted (E : IndexSet) (op : Opcode) (s : Int) : Prop where
  whole : E.contains s = true → op = .lload ∨ op = .lstore
  no_half : E.contains (s - 1) = false

/-- The check of an access accepts just these. -/
theorem checkAccess_var_ok {id : InsnId} : (Insn.var op s).checkAccess E id = .ok () ↔ Accepted E op s := by
  rw [Insn.checkAccess]
  constructor
  · intro h
    split at h
    · simp at h
    · next hwhole =>
      split at h
      · simp at h
      · next hhalf =>
        refine ⟨?_, by simpa using hhalf⟩
        intro hs
        by_contra hop
        rw [not_or] at hop
        exact hwhole ⟨hs, hop.1, hop.2⟩
  · intro h
    rw [if_neg, if_neg]
    · simp [h.no_half]
    · rintro ⟨hs, hload, hstore⟩
      rcases h.whole hs with rfl | rfl
      · exact hload rfl
      · exact hstore rfl

/-- An accepted slot behind an expanded one goes behind the three slots of that. -/
theorem Accepted.behind (h : Accepted E op s) (he : E.contains e = true) (hgt : e < s) :
    place E e + 3 ≤ place E s := by
  apply place_add_three_le E he
  by_contra hnot
  have hnext : s - 1 = e := by omega
  have hhalf := h.no_half
  rw [hnext, he] at hhalf
  exact absurd hhalf (by simp)

/-- The place of an accepted slot that is not expanded is outside of the three slots of any that is. -/
theorem Accepted.outside (h : Accepted E op s) (hs : E.contains s = false) (he : E.contains e = true) :
    place E s < place E e ∨ place E e + 3 ≤ place E s := by
  rcases lt_trichotomy s e with hlt | rfl | hgt
  · exact .inl (place_lt_place E hlt)
  · rw [hs] at he
    exact absurd he (by simp)
  · exact .inr (h.behind he hgt)

/-- Two accepted slots that are expanded become the same three slots, or three slots each. -/
theorem Accepted.same_or_apart {op' : Opcode} (h : Accepted E op s)
    (h' : Accepted E op' e) (hs : E.contains s = true) (he : E.contains e = true) :
    s = e ∨ place E s + 3 ≤ place E e ∨ place E e + 3 ≤ place E s := by
  rcases lt_trichotomy s e with hlt | rfl | hgt
  · exact .inr (.inl (h'.behind hs hlt))
  · exact .inl rfl
  · exact .inr (.inr (h.behind he hgt))

/-- The slot is the place of one that `op` may access. -/
def Placed (E : IndexSet) (op : Opcode) (slot : Int) : Prop := ∃ s, slot = place E s ∧ Accepted E op s

/-- An accepted slot is moved to the place of one: a slot that comes round is a negative one, and these are their
own places. -/
theorem Accepted.placed (h : Accepted E op s) : Placed E op ((ofSlots E).map s) := by
  rcases map_cases E s with heq | ⟨-, -, -, hneg⟩
  · exact ⟨s, heq, h⟩
  · have houtside : ∀ t : Int, t < 0 → E.contains t = false := by
      intro t ht
      by_contra hcontains
      obtain ⟨k, rfl, -⟩ := (E.contains_iff t).mp (by simpa using hcontains)
      omega
    refine ⟨_, (place_of_nonpos E hneg.le).symm, fun hin => ?_, houtside _ (by omega)⟩
    simp [houtside _ hneg] at hin

/-- The slot is none of the three that an expanded slot became. -/
def Clear (E : IndexSet) (slot : Int) : Prop :=
  ∀ first, (ofSlots E).isFirst first = true → slot < first ∨ first + 3 ≤ slot

theorem Placed.clear {slot : Int} (h : Placed E op slot) (hload : op ≠ .lload)
    (hstore : op ≠ .lstore) : Clear E slot := by
  obtain ⟨s, rfl, hs⟩ := h
  intro first hfirst
  obtain ⟨e, he, rfl⟩ := (isFirst_iff E first).mp hfirst
  apply hs.outside ?_ he
  by_contra hcontains
  rcases hs.whole (by simpa using hcontains) with rfl | rfl
  · exact hload rfl
  · exact hstore rfl

theorem Placed.same_or_apart {op' : Opcode} {slot slot' : Int} (h : Placed E op slot)
    (h' : Placed E op' slot') (hfirst : (ofSlots E).isFirst slot = true) (hfirst' : (ofSlots E).isFirst slot' = true) :
    slot = slot' ∨ slot + 3 ≤ slot' ∨ slot' + 3 ≤ slot := by
  obtain ⟨s, rfl, hs⟩ := h
  obtain ⟨s', rfl, hs'⟩ := h'
  rw [isFirst_place] at hfirst hfirst'
  rcases hs.same_or_apart hs' hfirst hfirst' with rfl | hapart
  · exact .inl rfl
  · exact .inr hapart

end SlotMap

end CoordSplit
