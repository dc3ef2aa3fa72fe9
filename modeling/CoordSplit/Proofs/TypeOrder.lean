import CoordSplit.Proofs.Descriptors

/-!
# The order of types

A type is above another one if merging the two gives it: it takes in all values of the other one. Merging is the join
of this order, whatever classes and arrays are met, and `top` is above all types. The order is flat. Above null there
are only the classes and arrays, then the root class and `top`, and above an int-like type only `int` and `top`. So
types can be raised at most three times (`ValueType.rank_lt`), which is what bounds the analysis.
-/

set_option autoImplicit false

namespace CoordSplit

namespace ValueType

/-! ## Joins -/

/-- When a type takes in another one. -/
theorem merge_eq_right_iff (t u : ValueType) : t.merge u = u ↔
    t = u ∨ (t.isInt = true ∧ u = .int) ∨ (t = .null ∧ u.isRef = true) ∨ (t.isRef = true ∧ u = .objectClass) ∨
      u = .top := by
  rw [merge]
  split_ifs <;> grind [isInt, isRef, objectClass]

variable {t u v : ValueType}

theorem not_isRef_of_isInt (h : t.isInt = true) : t.isRef = false := by
  cases t <;> simp_all [isInt, isRef]

theorem merge_self (t : ValueType) : t.merge t = t := by
  simp [merge]

theorem merge_trans (htu : t.merge u = u) (huv : u.merge v = v) : t.merge v = v := by
  rw [merge_eq_right_iff] at *
  grind [isInt, isRef, objectClass, not_isRef_of_isInt]

theorem merge_antisymm (htu : t.merge u = u) (hut : u.merge t = t) : t = u := by
  rw [merge_eq_right_iff] at *
  grind [isInt, isRef, objectClass, not_isRef_of_isInt]

theorem merge_absorbs_left (t u : ValueType) : t.merge (t.merge u) = t.merge u := by
  rw [merge_eq_right_iff, merge]
  split_ifs <;> grind [isInt, isRef, objectClass, not_isRef_of_isInt]

theorem merge_absorbs_right (t u : ValueType) : u.merge (t.merge u) = t.merge u := by
  rw [merge_eq_right_iff, merge]
  split_ifs <;> grind [isInt, isRef, objectClass, not_isRef_of_isInt]

theorem merge_absorbs_merge (ht : t.merge v = v) (hu : u.merge v = v) : (t.merge u).merge v = v := by
  rw [merge_eq_right_iff] at *
  rw [merge]
  split_ifs <;> grind [isInt, isRef, objectClass, not_isRef_of_isInt]

/-- Types ordered by what they allow. -/
instance : SemilatticeSup ValueType where
  le t u := t.merge u = u
  le_refl := merge_self
  le_trans _ _ _ := merge_trans
  le_antisymm _ _ := merge_antisymm
  sup := merge
  le_sup_left := merge_absorbs_left
  le_sup_right := merge_absorbs_right
  sup_le _ _ _ := merge_absorbs_merge

theorem le_iff : t ≤ u ↔
    t = u ∨ (t.isInt = true ∧ u = .int) ∨ (t = .null ∧ u.isRef = true) ∨ (t.isRef = true ∧ u = .objectClass) ∨
      u = .top :=
  merge_eq_right_iff t u

/-! ## Widths -/

theorem size_of_isInt (h : t.isInt = true) : t.size = 1 := by
  cases t with
  | prim p => cases p <;> simp [isInt] at h <;> rfl
  | _ => rfl

theorem size_of_isRef (h : t.isRef = true) : t.size = 1 := by
  cases t with
  | prim p => simp [isRef] at h
  | _ => rfl

/-- A type above another one is that type or takes one word. -/
theorem eq_or_size_of_le (h : t ≤ u) : t = u ∨ u.size = 1 := by
  rcases le_iff.mp h with rfl | ⟨-, rfl⟩ | ⟨-, hu⟩ | ⟨-, rfl⟩ | rfl
  · exact .inl rfl
  · exact .inr rfl
  · exact .inr (size_of_isRef hu)
  · exact .inr rfl
  · exact .inr rfl

/-- Only the type of unusable slots takes in types of other widths. -/
theorem size_eq_of_le (h : t ≤ u) (hu : u ≠ .top) : t.size = u.size := by
  rcases le_iff.mp h with rfl | ⟨ht, rfl⟩ | ⟨rfl, hu⟩ | ⟨ht, rfl⟩ | rfl
  · rfl
  · exact size_of_isInt ht
  · exact (size_of_isRef hu).symm
  · exact size_of_isRef ht
  · exact absurd rfl hu

/-- Types between two of one width have that width. -/
theorem size_eq_of_between (htu : t ≤ u) (huv : u ≤ v) (h : t.size = v.size) : u.size = v.size := by
  rcases eq_or_size_of_le huv with rfl | hv
  · rfl
  · rcases eq_or_size_of_le htu with rfl | hu
    · exact h
    · rw [hu, hv]

/-! ## Heights -/

/-- How far up the type is in the order of types. -/
def rank (t : ValueType) : Nat :=
  if t = .top then 3 else if t = .objectClass then 2
  else if t = .int ∨ t.isRef = true ∧ t ≠ .null then 1 else 0

theorem rank_le (t : ValueType) : t.rank ≤ 3 := by
  rw [rank]
  split_ifs <;> omega

theorem rank_lt (h : t ≤ u) (hne : t ≠ u) : t.rank < u.rank := by
  rw [le_iff] at h
  grind [rank, isInt, isRef, objectClass, not_isRef_of_isInt]

theorem rank_mono (h : t ≤ u) : t.rank ≤ u.rank := by
  by_cases hne : t = u
  · rw [hne]
  · exact (rank_lt h hne).le

/-- Each type of an ascending chain leaves room for fewer types above it. -/
theorem rank_add_length_le {ts : List ValueType} (h : (t :: ts).IsChain (· < ·)) : t.rank + ts.length ≤ 3 := by
  induction ts generalizing t with
  | nil => exact t.rank_le
  | cons u ts ih =>
    obtain ⟨htu, hts⟩ := List.isChain_cons_cons.mp h
    have hrank := rank_lt htu.le htu.ne
    have hrest := ih hts
    rw [List.length_cons]
    omega

/-- Types are told apart by their descriptors, and merging is the join of a partial order on them: it is commutative,
associative and idempotent, and with `top` it gives `top`. An ascending chain has at most four types, and null, a class,
the root class and `top` make one that long. -/
theorem merge_semilattice :
    (∀ t u : ValueType, t.desc = u.desc ↔ t = u) ∧
    (∀ t u : ValueType, t.merge u = u.merge t) ∧
    (∀ t u v : ValueType, (t.merge u).merge v = t.merge (u.merge v)) ∧
    (∀ t : ValueType, t.merge t = t) ∧
    (∀ t : ValueType, t.merge .top = .top ∧ merge .top t = .top) ∧
    (∀ t u : ValueType, t ≤ u ↔ t.merge u = u) ∧ IsPartialOrder ValueType (· ≤ ·) ∧
    (∀ t u : ValueType, IsLUB {t, u} (t.merge u)) ∧
    (∀ ts : List ValueType, ts.IsChain (· < ·) → ts.length ≤ 4) ∧
    [null, stringClass, objectClass, top].IsChain (· < ·) := by
  have htop : ∀ t : ValueType, t.merge .top = .top := fun t => (merge_eq_right_iff t .top).mpr (by simp)
  have hcomm : ∀ t u : ValueType, t.merge u = u.merge t := sup_comm
  refine ⟨fun t u => ⟨desc_inj, congrArg desc⟩, hcomm, sup_assoc, merge_self,
    fun t => ⟨htop t, (hcomm .top t).trans (htop t)⟩, fun t u => Iff.rfl, inferInstance, fun t u => isLUB_pair, ?_, ?_⟩
  · intro ts hts
    cases ts with
    | nil => exact Nat.zero_le 4
    | cons t ts =>
      have hlength := rank_add_length_le hts
      rw [List.length_cons]
      omega
  · have hstep : ∀ {t u : ValueType}, t.merge u = u → t ≠ u → t < u := fun hle hne => lt_of_le_of_ne hle hne
    refine .cons_cons (hstep ?_ ?_) (.cons_cons (hstep ?_ ?_) (.cons_cons (hstep ?_ ?_) (.singleton _))) <;> decide

end ValueType

end CoordSplit
