import CoordSplit.Proofs.FloatRounding
import CoordSplit.Proofs.WrittenForms

/-!
# Shortest decimals round to their number

The search for the shortest decimal of a number finds one, and what it finds rounds to the number
(`Decimal.shortest_spec`). Points of a grid are taken only if they lie in the interval of the number, and a grid of 18
digits is so fine that the point below the number does.
-/

set_option autoImplicit false

namespace CoordSplit

open BinaryFormat

/-- The numeral of a number has as many digits as the number needs. -/
theorem Text.length_ofNat (n : Nat) :
    0 < (ofNat n).length ∧ n < 10 ^ (ofNat n).length ∧ (0 < n → 10 ^ ((ofNat n).length - 1) ≤ n) := by
  unfold ofNat
  induction n using Nat.strong_induction_on with
  | h n ih =>
    rw [ofNatBase_eq (by omega)]
    split
    · next hn => simpa using ⟨hn, fun hpos => hpos⟩
    · next hn =>
      obtain ⟨hpos, hlt, hle⟩ := ih (n / 10) (by omega)
      have hle := hle (by omega)
      rw [List.length_append, List.length_singleton]
      refine ⟨by omega, ?_, fun _ => ?_⟩
      · rw [pow_succ]
        omega
      · rw [Nat.add_sub_cancel]
        calc 10 ^ (ofNatBase 10 (n / 10)).length = 10 ^ ((ofNatBase 10 (n / 10)).length - 1) * 10 := by
              rw [← pow_succ, Nat.sub_add_cancel hpos]
          _ ≤ n := by omega

namespace Decimal

theorem length_digitsOf (n : Nat) : (digitsOf n).length = (Text.ofNat n).length := by
  unfold digitsOf
  exact List.length_map ..

variable {num den : Nat}

/-- The power of ten that a search starts from is not above the number. -/
theorem floorLog10_le (hnum : 0 < num) (hden : 0 < den) : (10 : ℚ) ^ floorLog10 num den ≤ num / den := by
  have hden' : (0 : ℚ) < den := by exact_mod_cast hden
  unfold floorLog10
  rw [length_digitsOf, length_digitsOf]
  split
  · next hle =>
    obtain ⟨hpos, -, hlow⟩ := Text.length_ofNat (num / den)
    have hlow := hlow (Nat.div_pos hle hden)
    rw [show ((Text.ofNat (num / den)).length : Int) - 1 = ((Text.ofNat (num / den)).length - 1 : Nat) by omega,
      zpow_natCast]
    calc (10 : ℚ) ^ ((Text.ofNat (num / den)).length - 1) ≤ ((num / den : Nat) : ℚ) := by exact_mod_cast hlow
      _ ≤ num / den := Nat.cast_div_le
  · next hlt =>
    obtain ⟨-, hhigh, -⟩ := Text.length_ofNat ((den + num - 1) / num - 1)
    generalize (Text.ofNat ((den + num - 1) / num - 1)).length = k at hhigh ⊢
    have hceil := Nat.lt_mul_div_succ (den + num - 1) hnum
    have hscaled : den ≤ num * 10 ^ k := by
      calc den ≤ num * ((den + num - 1) / num) := by
            rw [Nat.mul_add, Nat.mul_one] at hceil
            omega
        _ ≤ num * 10 ^ k := Nat.mul_le_mul_left _ (by omega)
    rw [zpow_neg, zpow_natCast, inv_le_iff_one_le_mul₀ (by positivity), div_mul_eq_mul_div, one_le_div hden']
    exact_mod_cast hscaled

/-! ## Intervals and grids -/

/-- A number of units lies in the interval. -/
def Interval.Holds (i : Interval) (x : ℚ) : Prop :=
  if i.closed then (i.low : ℚ) ≤ x ∧ x ≤ i.high else (i.low : ℚ) < x ∧ x < i.high

variable {i : Interval}

theorem Interval.holds_of_lt {x : ℚ} (hlow : (i.low : ℚ) < x) (hhigh : x < i.high) : i.Holds x := by
  unfold Holds
  split
  · exact ⟨hlow.le, hhigh.le⟩
  · exact ⟨hlow, hhigh⟩

theorem Interval.contains_iff {a b : Nat} (hb : 0 < b) : i.contains a b = true ↔ i.Holds (a / b) := by
  have hb' : (0 : ℚ) < b := by exact_mod_cast hb
  unfold contains Holds
  split
  · rw [le_div_iff₀ hb', div_le_iff₀ hb']
    simp only [Bool.and_eq_true, decide_eq_true_eq]
    norm_cast
  · rw [lt_div_iff₀ hb', div_lt_iff₀ hb']
    simp only [Bool.and_eq_true, decide_eq_true_eq]
    norm_cast

section

variable (hnum : 0 < num) (hden : 0 < den)

include hnum hden

/-- A step of the grid, in units. -/
theorem step_eq (e : Int) :
    ((den * 10 ^ e.toNat : Nat) : ℚ) / ((num * 10 ^ (-e).toNat : Nat) : ℚ) = 10 ^ e / (num / den) := by
  have hnum' : (num : ℚ) ≠ 0 := by exact_mod_cast hnum.ne'
  have hden' : (den : ℚ) ≠ 0 := by exact_mod_cast hden.ne'
  have hpow := toNat_pow_div 10 e
  push_cast at hpow ⊢
  rw [← hpow]
  field_simp

theorem contains_grid (k : Nat) (e : Int) :
    i.contains (k * (den * 10 ^ e.toNat)) (num * 10 ^ (-e).toNat) = true ↔ i.Holds (k * 10 ^ e / (num / den)) := by
  rw [Interval.contains_iff (by positivity), mul_div_assoc, ← step_eq hnum hden, ← mul_div_assoc, Nat.cast_mul]

variable {v : Nat}

/-- The number of `v` units lies between the point of the grid below it and the next. -/
theorem floor_bounds (v : Nat) (e : Int) :
    let floor := v * num * 10 ^ (-e).toNat / (den * 10 ^ e.toNat)
    (floor * (10 ^ e / (num / den)) : ℚ) ≤ v ∧ (v : ℚ) < (floor + 1) * (10 ^ e / (num / den)) := by
  have hunits : (0 : ℚ) < (num * 10 ^ (-e).toNat : Nat) := by positivity
  have hbelow := Nat.div_mul_le_self (v * num * 10 ^ (-e).toNat) (den * 10 ^ e.toNat)
  have habove := Nat.lt_mul_div_succ (v * num * 10 ^ (-e).toNat) (show 0 < den * 10 ^ e.toNat by positivity)
  rw [mul_assoc v] at hbelow habove ⊢
  rw [← step_eq hnum hden]
  generalize v * (num * 10 ^ (-e).toNat) / (den * 10 ^ e.toNat) = k at hbelow habove ⊢
  dsimp only
  rw [← mul_div_assoc, ← mul_div_assoc, div_le_iff₀ hunits, lt_div_iff₀ hunits]
  rw [Nat.mul_comm _ (k + 1)] at habove
  exact_mod_cast And.intro hbelow habove

/-- On a grid with steps of at most a unit the point below the number is in its interval. -/
theorem floor_holds (hlow : i.low < v) (hhigh : v < i.high) {e : Int} (hfine : (10 : ℚ) ^ e ≤ num / den) :
    i.Holds ((v * num * 10 ^ (-e).toNat / (den * 10 ^ e.toNat) : Nat) * 10 ^ e / (num / den)) := by
  have hstep : (10 : ℚ) ^ e / (num / den) ≤ 1 := (div_le_one (by positivity)).mpr hfine
  have hlow' : (i.low + 1 : ℚ) ≤ v := by exact_mod_cast hlow
  have hhigh' : (v : ℚ) < i.high := by exact_mod_cast hhigh
  obtain ⟨hbelow, habove⟩ := floor_bounds hnum hden v e
  rw [mul_div_assoc]
  apply Interval.holds_of_lt
  · linarith
  · linarith

/-- The search takes only points of the interval, and reaches the grid whose steps are units. -/
theorem search_spec (hlow : i.low < v) (hhigh : v < i.high) {top : Int} {last : Nat}
    (hfine : (10 : ℚ) ^ (top - last + 1) ≤ num / den) {fuel n : Nat} (hn : n ≤ last) (hfuel : last < n + fuel) :
    ∃ k e, search v num den i top fuel n = ofUnits k e ∧ i.Holds (k * 10 ^ e / (num / den)) := by
  induction fuel generalizing n with
  | zero => omega
  | succ fuel ih =>
    have hfits := fun k => contains_grid (i := i) hnum hden k (top - n + 1)
    have hnearest := nearest_cases (v * num * 10 ^ (-(top - n + 1)).toNat) (den * 10 ^ (top - n + 1).toNat)
    unfold search
    dsimp only
    split
    · next hboth =>
      refine ⟨_, _, rfl, (hfits _).mp ?_⟩
      rw [Bool.and_eq_true] at hboth
      rcases hnearest with heq | heq
      · rw [heq]
        exact hboth.1
      · rw [heq]
        exact hboth.2
    · split
      · next hfloor => exact ⟨_, _, rfl, (hfits _).mp hfloor⟩
      · next hfloor =>
        split
        · next hnext => exact ⟨_, _, rfl, (hfits _).mp hnext⟩
        · have hne : n ≠ last := by
            rintro rfl
            exact hfloor ((hfits _).mpr (floor_holds hnum hden hlow hhigh hfine))
          exact ih (by omega) (by omega)

end

/-- The interval of units that the search is given is that of the numbers around `m * 2 ^ q`. -/
theorem roundsTo_of_holds {m : Nat} {q : Int} {even narrow : Bool} (hm : 0 < m) {x : ℚ}
    (h : Interval.Holds ⟨if narrow then 4 * m - 1 else 4 * m - 2, 4 * m + 2, even⟩ (x / (2 ^ q / 4))) :
    RoundsTo m q even narrow x := by
  have hunit : (0 : ℚ) < 2 ^ q / 4 := by positivity
  have hlow : ((if narrow then 4 * m - 1 else 4 * m - 2 : Nat) : ℚ) * (2 ^ q / 4) =
      (m - if narrow then 1 / 4 else 1 / 2) * 2 ^ q := by
    split
    · rw [Nat.cast_sub (by omega)]
      push_cast
      ring
    · rw [Nat.cast_sub (by omega)]
      push_cast
      ring
  have hhigh : ((4 * m + 2 : Nat) : ℚ) * (2 ^ q / 4) = (m + 1 / 2) * 2 ^ q := by
    push_cast
    ring
  unfold Interval.Holds at h
  unfold RoundsTo
  rw [le_div_iff₀ hunit, div_le_iff₀ hunit, lt_div_iff₀ hunit, div_lt_iff₀ hunit] at h
  dsimp only at h ⊢
  rw [hlow, hhigh] at h
  exact h

/-- The shortest decimal of a number rounds to it. -/
theorem shortest_spec {m : Nat} {q : Int} {even narrow : Bool} (hm : 0 < m) (hbound : 4 * m ≤ 10 ^ 17) :
    ∃ k e, shortest m q even narrow = ofUnits k e ∧ RoundsTo m q even narrow (k * 10 ^ e) := by
  have hunit : ((2 ^ (q - 2).toNat : Nat) / (2 ^ (2 - q).toNat : Nat) : ℚ) = 2 ^ q / 4 := by
    have hpow := toNat_pow_div 2 (q - 2)
    rw [neg_sub] at hpow
    rw [hpow, Nat.cast_ofNat, zpow_sub₀ two_ne_zero]
    norm_num
  unfold shortest
  rw [if_neg hm.ne']
  dsimp only
  have htop := floorLog10_le (show 0 < 4 * m * 2 ^ (q - 2).toNat by positivity) (show 0 < 2 ^ (2 - q).toNat by positivity)
  generalize floorLog10 (4 * m * 2 ^ (q - 2).toNat) (2 ^ (2 - q).toNat) = top at htop ⊢
  have hfine : (10 : ℚ) ^ (top - (18 : Nat) + 1) ≤ (2 ^ (q - 2).toNat : Nat) / (2 ^ (2 - q).toNat : Nat) := by
    have hbound' : (4 * m : ℚ) ≤ 10 ^ 17 := by exact_mod_cast hbound
    have hpos : (0 : ℚ) < 2 ^ q / 4 := by positivity
    rw [Nat.cast_mul, mul_div_assoc] at htop
    rw [hunit] at htop ⊢
    calc (10 : ℚ) ^ (top - (18 : Nat) + 1) = 10 ^ top / 10 ^ 17 := by
          rw [show top - (18 : Nat) + 1 = top - (17 : Nat) by omega, zpow_sub₀ (by norm_num), zpow_natCast]
      _ ≤ (4 * m : Nat) * (2 ^ q / 4) / 10 ^ 17 := by gcongr
      _ ≤ 2 ^ q / 4 := by
        rw [div_le_iff₀ (by positivity), mul_comm]
        push_cast
        gcongr
  have hlow : (if narrow then 4 * m - 1 else 4 * m - 2) < 4 * m := by
    split <;> omega
  obtain ⟨k, e, heq, hholds⟩ := search_spec (i := ⟨if narrow then 4 * m - 1 else 4 * m - 2, 4 * m + 2, even⟩)
    (by positivity) (by positivity) hlow (by omega : 4 * m < 4 * m + 2) hfine (by omega : 1 ≤ 18) (by omega : 18 < 1 + 20)
  rw [hunit] at hholds
  exact ⟨k, e, heq, roundsTo_of_holds hm hholds⟩

end Decimal

end CoordSplit
