import CoordSplit.Number.Shortest
import Mathlib.Algebra.Order.Field.Power
import Mathlib.Tactic

/-!
# Rounding to the nearest floating point number

A finite number `m * 2 ^ q` of a format has around it the interval of those numbers that are nearest to it
(`BinaryFormat.RoundsTo`), and `BinaryFormat.round` gives its bits for every quotient of that interval
(`BinaryFormat.round_eq`). The gap below a power of two is half the gap above it, and a quotient there is rounded
among numbers with one more place.
-/

set_option autoImplicit false

namespace CoordSplit.BinaryFormat

/-! ## Whole numbers -/

theorem nearest_cases (num den : Nat) : nearest num den = num / den ∨ nearest num den = num / den + 1 := by
  unfold nearest
  dsimp only
  split_ifs <;> simp

/-- A quotient at most a half away from a whole number is rounded to it, and exactly a half away if it is even. -/
theorem nearest_eq {num den n : Nat} (hden : 0 < den) (hlow : (n : ℚ) - 1 / 2 ≤ num / den)
    (hhigh : (num / den : ℚ) ≤ n + 1 / 2)
    (htie : n % 2 = 1 → (n : ℚ) - 1 / 2 < num / den ∧ (num / den : ℚ) < n + 1 / 2) : nearest num den = n := by
  have hden' : (0 : ℚ) < den := by exact_mod_cast hden
  have hlow' : 2 * (n * den) ≤ 2 * num + den := by
    rw [le_div_iff₀ hden'] at hlow
    have hscaled : (2 * (n * den) : ℚ) ≤ 2 * num + den := by linarith
    exact_mod_cast hscaled
  have hhigh' : 2 * num ≤ 2 * (n * den) + den := by
    rw [div_le_iff₀ hden'] at hhigh
    have hscaled : (2 * num : ℚ) ≤ 2 * (n * den) + den := by linarith
    exact_mod_cast hscaled
  have htie' : n % 2 = 1 → 2 * (n * den) < 2 * num + den ∧ 2 * num < 2 * (n * den) + den := by
    intro hodd
    obtain ⟨hbelow, habove⟩ := htie hodd
    rw [lt_div_iff₀ hden'] at hbelow
    rw [div_lt_iff₀ hden'] at habove
    have hscaled : (2 * (n * den) : ℚ) < 2 * num + den ∧ (2 * num : ℚ) < 2 * (n * den) + den := by
      constructor <;> linarith
    exact_mod_cast hscaled
  have hmod := Nat.mod_lt num hden
  have hdiv := Nat.div_add_mod' num den
  unfold nearest
  dsimp only
  generalize num / den = k, num % den = r at hmod hdiv ⊢
  -- Only the two whole numbers around the quotient are that near.
  have hk : n = k ∨ n = k + 1 := by
    rcases Nat.lt_trichotomy n k with hlt | heq | hgt
    · have hmul := Nat.mul_le_mul_right den (Nat.succ_le_of_lt hlt)
      rw [Nat.succ_mul] at hmul
      omega
    · exact .inl heq
    · right
      by_contra hne
      have hmul := Nat.mul_le_mul_right den (show k + 2 ≤ n by omega)
      rw [Nat.add_mul] at hmul
      omega
  rcases hk with rfl | rfl
  · split_ifs <;> omega
  · rw [Nat.add_mul] at hlow' hhigh' htie'
    split_ifs <;> omega

/-! ## Powers of two -/

theorem toNat_pow_div (b : Nat) (e : Int) :
    (((b ^ e.toNat : Nat) : ℚ) / ((b ^ (-e).toNat : Nat) : ℚ)) = (b : ℚ) ^ e := by
  obtain ⟨k, rfl | rfl⟩ := e.eq_nat_or_neg
  · simp
  · simp

variable {num den : Nat}

/-- A quotient counted in powers of two, for whole powers and for fractions. -/
theorem div_zpow_of_nonneg {k : Int} (hk : 0 ≤ k) :
    (num / den / 2 ^ k : ℚ) = num / ((den * 2 ^ k.toNat : Nat) : ℚ) := by
  obtain ⟨n, rfl⟩ := Int.eq_ofNat_of_zero_le hk
  simp [div_div]

theorem div_zpow_of_nonpos {k : Int} (hk : k ≤ 0) :
    (num / den / 2 ^ k : ℚ) = ((num * 2 ^ (-k).toNat : Nat) : ℚ) / den := by
  obtain ⟨n, rfl⟩ := Int.exists_eq_neg_ofNat hk
  simp [div_mul_eq_mul_div]

/-- The binary logarithm is the difference of two, or one less. -/
theorem floorLog2_eq (hden : 0 < den) :
    floorLog2 num den =
      if (num / den : ℚ) < 2 ^ ((num.log2 : Int) - den.log2) then (num.log2 : Int) - den.log2 - 1
      else num.log2 - den.log2 := by
  have hless : ∀ {a b : Nat}, 0 < b → (a < b ↔ (a / b : ℚ) < 1) := by
    intro a b hb
    rw [div_lt_one (by exact_mod_cast hb), Nat.cast_lt]
  unfold floorLog2
  dsimp only
  generalize (num.log2 : Int) - den.log2 = k
  have hpow : (0 : ℚ) < 2 ^ k := by positivity
  split
  · next hk =>
    refine if_congr ?_ rfl rfl
    rw [← div_lt_one hpow, div_zpow_of_nonneg hk]
    exact hless (by positivity)
  · next hk =>
    refine if_congr ?_ rfl rfl
    rw [← div_lt_one hpow, div_zpow_of_nonpos (by omega)]
    exact hless hden

/-- The logarithm is that of the greatest power of two that is not above the quotient. -/
theorem floorLog2_spec (hnum : 0 < num) (hden : 0 < den) :
    (2 : ℚ) ^ floorLog2 num den ≤ num / den ∧ (num / den : ℚ) < 2 ^ (floorLog2 num den + 1) := by
  have hden' : (0 : ℚ) < den := by exact_mod_cast hden
  have hnumLow : (2 : ℚ) ^ (num.log2 : Int) ≤ num := by exact_mod_cast Nat.log2_self_le hnum.ne'
  have hnumHigh : (num : ℚ) < 2 ^ ((num.log2 : Int) + 1) := by exact_mod_cast Nat.lt_log2_self
  have hdenLow : (2 : ℚ) ^ (den.log2 : Int) ≤ den := by exact_mod_cast Nat.log2_self_le hden.ne'
  have hdenHigh : (den : ℚ) < 2 ^ ((den.log2 : Int) + 1) := by exact_mod_cast Nat.lt_log2_self
  rw [floorLog2_eq hden]
  split_ifs with hlt
  · refine ⟨?_, by simpa using hlt⟩
    rw [le_div_iff₀ hden']
    calc (2 : ℚ) ^ ((num.log2 : Int) - den.log2 - 1) * den
        ≤ 2 ^ ((num.log2 : Int) - den.log2 - 1) * 2 ^ ((den.log2 : Int) + 1) := by gcongr
      _ = 2 ^ (num.log2 : Int) := by
        rw [← zpow_add₀ two_ne_zero]
        congr 1
        omega
      _ ≤ num := hnumLow
  · refine ⟨not_lt.mp hlt, ?_⟩
    rw [div_lt_iff₀ hden']
    calc (num : ℚ) < 2 ^ ((num.log2 : Int) + 1) := hnumHigh
      _ = 2 ^ ((num.log2 : Int) - den.log2 + 1) * 2 ^ (den.log2 : Int) := by
        rw [← zpow_add₀ two_ne_zero]
        congr 1
        omega
      _ ≤ 2 ^ ((num.log2 : Int) - den.log2 + 1) * den := by gcongr

/-! ## Numbers of a format -/

/-- A finite number `m * 2 ^ q` of a format, with its parity and whether the gap below it is half the gap above. -/
structure IsNumber (form : BinaryFormat) (m : Nat) (q : Int) (even narrow : Bool) : Prop where
  exponent : form.minExponent ≤ q
  bound : m < 2 ^ (form.fractionBits + 1)
  normal : form.minExponent < q → 2 ^ form.fractionBits ≤ m
  even_iff : even = true ↔ m % 2 = 0
  narrow_iff : narrow = true ↔ form.minExponent < q ∧ m = 2 ^ form.fractionBits

/-- The bits of a finite number. -/
def pack (form : BinaryFormat) (m : Nat) (q : Int) : Nat :=
  (q - form.minExponent).toNat * 2 ^ form.fractionBits + m

/-- A quotient lies around the number `m * 2 ^ q`, up to half the gap to each neighbour; the ends belong to the
interval if ties go to the number. -/
def RoundsTo (m : Nat) (q : Int) (even narrow : Bool) (x : ℚ) : Prop :=
  let low : ℚ := (m - if narrow then 1 / 4 else 1 / 2) * 2 ^ q
  let high : ℚ := (m + 1 / 2) * 2 ^ q
  if even then low ≤ x ∧ x ≤ high else low < x ∧ x < high

section

variable {form : BinaryFormat} {m : Nat} {q : Int} {even narrow : Bool}

variable {x : ℚ} {k : Int}

theorem RoundsTo.bounds (h : RoundsTo m q even narrow x) :
    (m - if narrow then 1 / 4 else 1 / 2 : ℚ) * 2 ^ q ≤ x ∧ x ≤ (m + 1 / 2) * 2 ^ q := by
  unfold RoundsTo at h
  dsimp only at h
  split at h
  · exact h
  · exact ⟨h.1.le, h.2.le⟩

theorem half_le (m : Nat) (q : Int) (narrow : Bool) :
    (m - 1 / 2 : ℚ) * 2 ^ q ≤ (m - if narrow then 1 / 4 else 1 / 2) * 2 ^ q := by
  gcongr
  split <;> norm_num

theorem RoundsTo.low_le (h : RoundsTo m q even narrow x) : (m - 1 / 2) * 2 ^ q ≤ x :=
  (half_le m q narrow).trans h.bounds.1

theorem RoundsTo.strict (h : RoundsTo m q false narrow x) : (m - 1 / 2) * 2 ^ q < x ∧ x < (m + 1 / 2) * 2 ^ q :=
  ⟨(half_le m q narrow).trans_lt h.1, h.2⟩

/-- The interval reaches above zero only. -/
theorem RoundsTo.pos (h : RoundsTo m q even narrow x) (hm : 0 < m) : 0 < x := by
  have hm' : (1 : ℚ) ≤ m := by exact_mod_cast hm
  refine lt_of_lt_of_le ?_ h.low_le
  apply mul_pos
  · linarith
  · positivity

/-- A quotient is rounded among the multiples of a power of two. -/
theorem nearest_scaled {n : Nat} (hden : 0 < den) (hlow : (n - 1 / 2 : ℚ) * 2 ^ k ≤ num / den)
    (hhigh : (num / den : ℚ) ≤ (n + 1 / 2) * 2 ^ k)
    (htie : n % 2 = 1 → (n - 1 / 2 : ℚ) * 2 ^ k < num / den ∧ (num / den : ℚ) < (n + 1 / 2) * 2 ^ k) :
    (if 0 ≤ k then nearest num (den * 2 ^ k.toNat) else nearest (num * 2 ^ (-k).toNat) den) = n := by
  have hpow : (0 : ℚ) < 2 ^ k := by positivity
  rw [← le_div_iff₀ hpow] at hlow
  rw [← div_le_iff₀ hpow] at hhigh
  rw [← lt_div_iff₀ hpow, ← div_lt_iff₀ hpow] at htie
  split
  · next hk =>
    rw [div_zpow_of_nonneg hk] at hlow hhigh htie
    exact nearest_eq (by positivity) hlow hhigh htie
  · next hk =>
    rw [div_zpow_of_nonpos (by omega)] at hlow hhigh htie
    exact nearest_eq hden hlow hhigh htie

/-- A quotient around a number has no larger logarithm than the numbers of that exponent. -/
theorem floorLog2_le (hform : form.IsNumber m q even narrow) (hnum : 0 < num) (hden : 0 < den)
    (h : RoundsTo m q even narrow (num / den)) : floorLog2 num den ≤ q + form.fractionBits := by
  have hbound : (m + 1 : ℚ) ≤ 2 ^ ((form.fractionBits : Int) + 1) := by exact_mod_cast hform.bound
  have hlt : (2 : ℚ) ^ floorLog2 num den < 2 ^ (form.fractionBits + 1 + q : Int) := by
    calc (2 : ℚ) ^ floorLog2 num den ≤ num / den := (floorLog2_spec hnum hden).1
      _ ≤ (m + 1 / 2) * 2 ^ q := h.bounds.2
      _ < (m + 1) * 2 ^ q := by gcongr; norm_num
      _ ≤ 2 ^ ((form.fractionBits : Int) + 1) * 2 ^ q := by gcongr
      _ = 2 ^ (form.fractionBits + 1 + q : Int) := (zpow_add₀ two_ne_zero _ _).symm
  have hexp := (zpow_lt_zpow_iff_right₀ one_lt_two).mp hlt
  omega

/-- A power of two that is not above the quotient bounds its logarithm. -/
theorem le_floorLog2 (hnum : 0 < num) (hden : 0 < den) (h : (2 : ℚ) ^ k ≤ num / den) : k ≤ floorLog2 num den := by
  have hlt := h.trans_lt (floorLog2_spec hnum hden).2
  have hexp := (zpow_lt_zpow_iff_right₀ one_lt_two).mp hlt
  omega

theorem floorLog2_lt (hnum : 0 < num) (hden : 0 < den) (h : (num / den : ℚ) < 2 ^ k) : floorLog2 num den < k :=
  (zpow_lt_zpow_iff_right₀ one_lt_two).mp ((floorLog2_spec hnum hden).1.trans_lt h)

/-- The logarithm is that of the numbers with the exponent of the number, unless the quotient lies in the narrow gap
below a power of two. -/
theorem exponent_eq (hform : form.IsNumber m q even narrow) (hnum : 0 < num) (hden : 0 < den)
    (h : RoundsTo m q even narrow (num / den)) (hgap : narrow = true → (m * 2 ^ q : ℚ) ≤ num / den) :
    max form.minExponent (floorLog2 num den - form.fractionBits) = q := by
  have hupper := floorLog2_le hform hnum hden h
  have hexponent := hform.exponent
  rcases hexponent.eq_or_lt with heq | hlt
  · omega
  · have hle : (2 : ℚ) ^ (form.fractionBits + q : Int) ≤ num / den := by
      rw [zpow_add₀ two_ne_zero, zpow_natCast]
      by_cases hnarrow : narrow = true
      · rw [(hform.narrow_iff.mp hnarrow).2] at hgap
        exact_mod_cast hgap hnarrow
      · have hm : (2 ^ form.fractionBits + 1 : ℚ) ≤ m := by
          have hne : m ≠ 2 ^ form.fractionBits := fun heq => hnarrow (hform.narrow_iff.mpr ⟨hlt, heq⟩)
          have hle := hform.normal hlt
          exact_mod_cast (by omega : 2 ^ form.fractionBits + 1 ≤ m)
        refine le_trans ?_ h.low_le
        gcongr
        linarith
    have hlower := le_floorLog2 hnum hden hle
    omega

/-- In the narrow gap below a power of two the quotient is rounded among numbers with one more place. -/
theorem exponent_narrow (hform : form.IsNumber m q even true) (hnum : 0 < num) (hden : 0 < den)
    (h : RoundsTo m q even true (num / den)) (hgap : (num / den : ℚ) < m * 2 ^ q) :
    max form.minExponent (floorLog2 num den - form.fractionBits) = q - 1 := by
  obtain ⟨hlt, hm⟩ := hform.narrow_iff.mp rfl
  have hm' : (m : ℚ) = 2 ^ (form.fractionBits : Int) := by exact_mod_cast hm
  have hpos : (1 : ℚ) ≤ m := by
    have hpow := Nat.one_le_two_pow (n := form.fractionBits)
    exact_mod_cast hm ▸ hpow
  have hbelow := floorLog2_lt (k := form.fractionBits + q) hnum hden (by rwa [zpow_add₀ two_ne_zero, ← hm'])
  have habove : (2 : ℚ) ^ (form.fractionBits + q - 1 : Int) ≤ num / den := by
    have hlow := h.bounds.1
    rw [if_pos rfl] at hlow
    refine le_trans ?_ hlow
    rw [zpow_sub_one₀ two_ne_zero, zpow_add₀ two_ne_zero, ← hm']
    have hq : (0 : ℚ) < 2 ^ q := by positivity
    nlinarith
  have hlower := le_floorLog2 hnum hden habove
  omega

/-- Every quotient around a number is rounded to its bits. -/
theorem round_eq (hform : form.IsNumber m q even narrow) (hm : 0 < m) (hbits : form.pack m q < form.infinity)
    (hden : 0 < den) (h : RoundsTo m q even narrow (num / den)) : form.round num den = some (form.pack m q) := by
  have hnum : 0 < num := by
    have hpos := h.pos hm
    by_contra hzero
    obtain rfl : num = 0 := by omega
    simp at hpos
  have hq : (0 : ℚ) < 2 ^ q := by positivity
  unfold round
  rw [if_neg hnum.ne']
  dsimp only
  by_cases hgap : narrow = true ∧ (num / den : ℚ) < m * 2 ^ q
  · obtain ⟨rfl, hgap⟩ := hgap
    obtain ⟨hlt, heq⟩ := hform.narrow_iff.mp rfl
    have hlow := h.bounds.1
    rw [if_pos rfl] at hlow
    have hhalf : (2 : ℚ) ^ q = 2 ^ (q - 1) * 2 := by
      rw [← zpow_add_one₀ two_ne_zero, sub_add_cancel]
    rw [hhalf] at hlow hgap
    have hhalf' : (0 : ℚ) < 2 ^ (q - 1) := by positivity
    have hlow' : ((2 * m : Nat) - 1 / 2 : ℚ) * 2 ^ (q - 1) ≤ num / den := by
      push_cast
      linarith
    have hhigh' : (num / den : ℚ) ≤ ((2 * m : Nat) + 1 / 2) * 2 ^ (q - 1) := by
      push_cast
      linarith
    have hnearest := nearest_scaled hden hlow' hhigh' (by omega)
    have hpack : (q - 1 - form.minExponent).toNat * 2 ^ form.fractionBits + 2 * m = form.pack m q := by
      unfold pack
      rw [heq, show (q - form.minExponent).toNat = (q - 1 - form.minExponent).toNat + 1 by omega]
      ring
    rw [exponent_narrow hform hnum hden h (by rwa [hhalf]), hnearest, hpack, if_pos hbits]
  · have hnearest := nearest_scaled (n := m) (k := q) hden h.low_le h.bounds.2 (by
      intro hodd
      obtain rfl : even = false := by
        rw [← Bool.not_eq_true, hform.even_iff]
        omega
      exact h.strict)
    have hexponent := exponent_eq hform hnum hden h fun hnarrow => not_lt.mp fun hlt => hgap ⟨hnarrow, hlt⟩
    rw [hexponent, hnearest, ← pack, if_pos hbits]

end

/-! ## Bits -/

variable (form : BinaryFormat)

theorem infinity_lt_signBit : form.infinity < form.signBit := by
  unfold infinity signBit
  rw [pow_add, mul_comm (2 ^ form.fractionBits)]
  have hpow := Nat.one_le_two_pow (n := form.exponentBits)
  exact Nat.mul_lt_mul_of_pos_right (by omega) (by positivity)

/-- The sign bit does not change the magnitude. -/
theorem magnitude_add_signBit (bits : Nat) : form.magnitude (form.signBit + bits) = form.magnitude bits := by
  have hfraction : (form.signBit + bits) % 2 ^ form.fractionBits = bits % 2 ^ form.fractionBits := by
    rw [signBit, pow_add, Nat.mul_add_mod]
  have hbiased : (form.signBit + bits) / 2 ^ form.fractionBits % 2 ^ form.exponentBits =
      bits / 2 ^ form.fractionBits % 2 ^ form.exponentBits := by
    rw [signBit, pow_add, Nat.mul_add_div (by positivity), Nat.add_mod_left]
  unfold magnitude
  rw [hfraction, hbiased]

theorem isNegative_add_signBit {bits : Nat} (h : bits < form.signBit) :
    form.isNegative (form.signBit + bits) = true ∧ form.isNegative bits = false := by
  unfold isNegative
  have hclear := Nat.testBit_lt_two_pow h
  rw [signBit, Nat.testBit_two_pow_add_eq, hclear]
  exact ⟨rfl, rfl⟩

variable {form}

/-- Bits below those of infinity are the bits of a finite number. -/
theorem magnitude_finite (hform : 0 < form.fractionBits) {bits : Nat} (h : bits < form.infinity) :
    ∃ m q even narrow, form.magnitude bits = .finite m q even narrow ∧ form.IsNumber m q even narrow ∧
      form.pack m q = bits := by
  have hbiased : bits / 2 ^ form.fractionBits < 2 ^ form.exponentBits - 1 := by
    rw [Nat.div_lt_iff_lt_mul (by positivity)]
    exact h
  have hfraction := Nat.mod_lt bits (Nat.two_pow_pos form.fractionBits)
  have hbits := Nat.div_add_mod' bits (2 ^ form.fractionBits)
  have heven : 2 ∣ 2 ^ form.fractionBits := dvd_pow_self 2 (by omega)
  unfold magnitude
  dsimp only
  rw [Nat.mod_eq_of_lt (hbiased.trans_le (Nat.sub_le _ _)), if_neg hbiased.ne]
  generalize bits / 2 ^ form.fractionBits = biased, bits % 2 ^ form.fractionBits = fraction at hbiased hfraction hbits ⊢
  split
  · next hzero =>
    refine ⟨_, _, _, _, rfl, ⟨le_rfl, by rw [pow_succ]; omega, by omega, by simp, by simp⟩, ?_⟩
    subst hzero
    unfold pack
    simp only [sub_self, Int.toNat_zero, zero_mul, zero_add] at hbits ⊢
    exact hbits
  · next hpos =>
    refine ⟨_, _, _, _, rfl, ⟨by omega, by rw [pow_succ]; omega, by omega, ?_, ?_⟩, ?_⟩
    · simp only [decide_eq_true_eq]
      omega
    · simp only [Bool.and_eq_true, decide_eq_true_eq]
      omega
    · unfold pack
      rw [show (form.minExponent + biased - 1 - form.minExponent).toNat = biased - 1 by omega, ← add_assoc,
        ← Nat.succ_mul, Nat.succ_eq_add_one, Nat.sub_add_cancel (by omega), hbits]

end CoordSplit.BinaryFormat
