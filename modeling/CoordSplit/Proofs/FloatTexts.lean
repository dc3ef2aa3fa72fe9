import CoordSplit.Number.FloatText
import CoordSplit.Proofs.ShortestDecimals

/-!
# The text of a floating point number is read as the number

What is written for the bits of a number is read as the same bits (`BinaryFormat.read?_render`), for all bits that
reading can give: finite numbers of both signs, the infinities and the one pattern that stands for `NaN`. The text of a
decimal, positional or with an exponent, is read as a numeral with the value of the decimal (`readUnsigned_render`), and
by `Decimal.shortest_spec` that value rounds to the number.
-/

set_option autoImplicit false

namespace CoordSplit

open Text

/-! ## The value of a decimal -/

namespace Decimal

/-- The whole number that digits write behind those of `acc`. -/
def ofDigits (acc : Nat) (ds : List Nat) : Nat := ds.foldl (fun n d => n * 10 + d) acc

/-- The value of a decimal. -/
def value (d : Decimal) : ℚ := ofDigits 0 d.digits * 10 ^ (d.point - d.digits.length)

theorem ofDigits_append (acc : Nat) (ds es : List Nat) :
    ofDigits acc (ds ++ es) = ofDigits (ofDigits acc ds) es := by
  unfold ofDigits
  exact List.foldl_append

theorem ofDigits_zeros (acc k : Nat) : ofDigits acc (List.replicate k 0) = acc * 10 ^ k := by
  induction k generalizing acc with
  | zero => simp [ofDigits]
  | succ k ih =>
    rw [List.replicate_succ', ofDigits_append, ih, pow_succ, ← mul_assoc]
    rfl

/-- The digits of a number are a digit, or those of its quotient by ten and one more. -/
theorem digitsOf_eq (n : Nat) : digitsOf n = if n < 10 then [n] else digitsOf (n / 10) ++ [n % 10] := by
  have hdigit : ∀ d < 10, (digit d).toNat - 48 = d := by decide
  unfold digitsOf ofNat
  rw [ofNatBase_eq (by omega)]
  split
  · next h => simp [hdigit n h]
  · rw [List.map_append, List.map_singleton, hdigit _ (Nat.mod_lt _ (by omega))]

theorem ofDigits_digitsOf (n : Nat) : ofDigits 0 (digitsOf n) = n := by
  induction n using Nat.strong_induction_on with
  | h n ih =>
    rw [digitsOf_eq]
    split
    · simp [ofDigits]
    · rw [ofDigits_append, ih _ (by omega)]
      simp only [ofDigits, List.foldl_cons, List.foldl_nil]
      omega

theorem lt_of_mem_digitsOf {n d : Nat} (h : d ∈ digitsOf n) : d < 10 := by
  induction n using Nat.strong_induction_on with
  | h n ih =>
    rw [digitsOf_eq] at h
    split at h
    · next hn =>
      rw [List.mem_singleton.mp h]
      exact hn
    · rcases List.mem_append.mp h with h | h
      · exact ih _ (by omega) h
      · rw [List.mem_singleton.mp h]
        exact Nat.mod_lt _ (by omega)

/-- Digits are those without the zeros at their end, and the zeros. -/
theorem exists_zeros (ds : List Nat) :
    ∃ k, ds = (ds.reverse.dropWhile (· = 0)).reverse ++ List.replicate k 0 := by
  induction ds using List.reverseRecOn with
  | nil => exact ⟨0, rfl⟩
  | append_singleton ds d ih =>
    rw [List.reverse_append, List.reverse_singleton, List.singleton_append, List.dropWhile_cons]
    by_cases hd : d = 0
    · obtain ⟨k, hk⟩ := ih
      rw [if_pos (by simpa using hd)]
      refine ⟨k + 1, ?_⟩
      rw [List.replicate_succ', ← List.append_assoc, ← hk, hd]
    · rw [if_neg (by simpa using hd)]
      exact ⟨0, by simp⟩

/-- Leaving out the zeros at the end does not change the value. -/
theorem value_ofUnits (n : Nat) (e : Int) : (ofUnits n e).value = n * 10 ^ e := by
  obtain ⟨k, hk⟩ := exists_zeros (digitsOf n)
  unfold value ofUnits
  dsimp only
  have hlength := congrArg List.length hk
  have hvalue := ofDigits_digitsOf n
  rw [hk, ofDigits_append, ofDigits_zeros] at hvalue
  rw [List.length_append, List.length_replicate] at hlength
  generalize ((digitsOf n).reverse.dropWhile (· = 0)).reverse = ds at hlength hvalue ⊢
  have hn : (n : ℚ) = ofDigits 0 ds * 10 ^ k := by exact_mod_cast hvalue.symm
  rw [hlength, show ((ds.length + k : Nat) : Int) + e - ds.length = k + e by omega, zpow_add₀ (by norm_num),
    zpow_natCast, hn]
  ring

theorem lt_of_mem_ofUnits {n d : Nat} {e : Int} (h : d ∈ (ofUnits n e).digits) : d < 10 := by
  have hd := (List.dropWhile_suffix _).subset (List.mem_reverse.mp h)
  exact lt_of_mem_digitsOf (List.mem_reverse.mp hd)

end Decimal

/-! ## Digits are read -/

namespace BinaryFormat

open Decimal

theorem digit_spec {d : Nat} (h : d < 10) :
    isDigit (digit d) = true ∧ (digit d).toNat - 48 = d ∧ digitValue (digit d) = some d := by
  have hall : ∀ d < 10, isDigit (digit d) = true ∧ (digit d).toNat - 48 = d ∧
      digitValue (digit d) = some d := by decide
  exact hall d h

variable {d : Decimal} {b : UInt8} {e : Int} {whole fraction : List Nat} {bits : Nat}

theorem ne_of_isDigit {c : UInt8} (hb : isDigit b = true) (hc : isDigit c = false) : b ≠ c := by
  rintro rfl
  rw [hb] at hc
  cases hc

/-- The digits in front are read before all else. -/
theorem readMantissa_digits {ds : List Nat} (h : ∀ d ∈ ds, d < 10) (m : Mantissa) (rest : Text) :
    readMantissa false m (digitText ds ++ rest) =
      readMantissa false { m with
        value := ofDigits m.value ds
        places := if m.sawPoint then m.places + ds.length else m.places
        sawDigit := m.sawDigit || !ds.isEmpty } rest := by
  induction ds generalizing m with
  | nil => simp [digitText, ofDigits]
  | cons d ds ih =>
    have hd := h d (by simp)
    obtain ⟨hdigit, -, hvalue⟩ := digit_spec hd
    have hgap := ne_of_isDigit hdigit (show isDigit 95 = false by decide)
    have hpoint := ne_of_isDigit hdigit (show isDigit 46 = false by decide)
    have hds := ih fun e he => h e (by simp [he])
    simp only [digitText, List.map_cons, List.cons_append] at hds ⊢
    rw [readMantissa, if_neg hgap, if_neg hpoint, hvalue]
    dsimp only
    rw [if_pos (.inl hd), hds]
    cases m.sawPoint <;> simp [ofDigits, Nat.add_assoc, Nat.add_comm 1]

theorem readMantissa_point {m : Mantissa} (h : m.sawPoint = false) (rest : Text) :
    readMantissa false m (46 :: rest) = readMantissa false { m with sawPoint := true } rest := by
  rw [readMantissa]
  simp [h]

theorem readMantissa_nil (m : Mantissa) : readMantissa false m [] = { m with rest := [] } := rfl

theorem readMantissa_mark (m : Mantissa) (rest : Text) :
    readMantissa false m (101 :: rest) = { m with rest := 101 :: rest } := by
  have hvalue : digitValue 101 = some 14 := by decide
  rw [readMantissa]
  simp [hvalue]

/-! ## Exponents are read -/

theorem readExponent_cons (acc : Nat) (b : UInt8) (t : Text) :
    readExponent acc (b :: t) =
      if b = 95 then readExponent acc t
      else if isDigit b then readExponent (if acc < 10000 then acc * 10 + (b.toNat - 48) else acc) t
      else (acc, b :: t) := rfl

theorem readExponent_zeros (k : Nat) (t : Text) : readExponent 0 (List.replicate k 48 ++ t) = readExponent 0 t := by
  induction k with
  | zero => rfl
  | succ k ih =>
    rw [List.replicate_succ, List.cons_append, readExponent_cons, if_neg (by decide), if_pos (by decide)]
    exact ih

theorem readExponent_append {s : Text} (h : ∀ b ∈ s, isDigit b = true) (acc : Nat) (t : Text) :
    readExponent acc (s ++ t) = readExponent (readExponent acc s).1 t := by
  induction s generalizing acc with
  | nil => rfl
  | cons b s ih =>
    have hb := h b (by simp)
    have hgap := ne_of_isDigit hb (show isDigit 95 = false by decide)
    rw [List.cons_append, readExponent_cons, readExponent_cons, if_neg hgap, if_neg hgap, if_pos hb, if_pos hb]
    exact ih (fun c hc => h c (by simp [hc])) _

theorem isDigit_of_mem_ofNat {n : Nat} (h : b ∈ ofNat n) : isDigit b = true :=
  forall_mem_ofNatBase (P := fun b => isDigit b = true) (by omega) (fun _ hd => (digit_spec hd).1) n b h

/-- An exponent of at most five digits is read in full. -/
theorem readExponent_ofNat {n : Nat} (h : n < 100000) : readExponent 0 (ofNat n) = (n, []) := by
  have hlast : ∀ acc d, acc < 10000 → d < 10 → readExponent acc [digit d] = (acc * 10 + d, []) := by
    intro acc d hacc hd
    obtain ⟨hdigit, hvalue, -⟩ := digit_spec hd
    have hgap := ne_of_isDigit hdigit (show isDigit 95 = false by decide)
    rw [readExponent_cons, if_neg hgap, if_pos hdigit, if_pos hacc, hvalue]
    rfl
  induction n using Nat.strong_induction_on with
  | h n ih =>
    rw [ofNat, ofNatBase_eq (by omega), ← ofNat]
    split
    · next hn => simpa using hlast 0 n (by omega) hn
    · have hquotient := ih (n / 10) (by omega) (by omega)
      rw [readExponent_append fun b hb => isDigit_of_mem_ofNat hb, hquotient, hlast _ _ (by omega) (by omega)]
      congr 1
      omega

/-- A signed exponent is read in full. -/
theorem exponent?_signed (h : e.natAbs < 100000) (k : Nat) :
    exponent? ((if e < 0 then 45 else 43) :: (List.replicate k 48 ++ ofNat e.natAbs)) = some (e, []) := by
  have hread : readExponent 0 (List.replicate k 48 ++ ofNat e.natAbs) = (e.natAbs, []) := by
    rw [readExponent_zeros, readExponent_ofNat h]
  have hdigits : ∀ b ∈ List.replicate k 48 ++ ofNat e.natAbs, isDigit b = true := by
    intro b hb
    rcases List.mem_append.mp hb with hb | hb
    · rw [(List.mem_replicate.mp hb).2]
      decide
    · exact isDigit_of_mem_ofNat hb
  have hne : List.replicate k 48 ++ ofNat e.natAbs ≠ [] := by
    simp [ofNat_ne_nil]
  generalize List.replicate k 48 ++ ofNat e.natAbs = t at hread hdigits hne ⊢
  cases t with
  | nil => exact absurd rfl hne
  | cons b t =>
    have hb := hdigits b (by simp)
    unfold exponent?
    by_cases hneg : e < 0
    · have hvalue : -(e.natAbs : Int) = e := by omega
      rw [if_pos hneg, show dropSign (45 :: b :: t) = b :: t from rfl]
      dsimp only
      rw [if_pos hb, hread, if_pos (List.head?_cons ..), hvalue]
    · have hvalue : (e.natAbs : Int) = e := by omega
      rw [if_neg hneg, show dropSign (43 :: b :: t) = b :: t from rfl]
      dsimp only
      rw [if_pos hb, hread, if_neg (by simp), hvalue]

/-! ## Unsigned numbers are read -/

/-- A byte of the decimal notation of a number. -/
def IsNumeric (b : UInt8) : Prop := isDigit b = true ∨ b = 46 ∨ b = 101 ∨ b = 43 ∨ b = 45

theorem isDigit_of_mem_digitText {ds : List Nat} (h : ∀ d ∈ ds, d < 10) (hb : b ∈ digitText ds) :
    isDigit b = true := by
  obtain ⟨d, hd, rfl⟩ := List.mem_map.mp hb
  exact (digit_spec (h d hd)).1

theorem digitText_zeros (k : Nat) : digitText (List.replicate k 0) = List.replicate k 48 := by
  unfold digitText
  rw [List.map_replicate]
  rfl

theorem bounds_of_isDigit (h : isDigit b = true) : 48 ≤ b.toNat ∧ b.toNat ≤ 57 := by
  simpa [isDigit, UInt8.le_iff_toNat_le] using h

theorem lowerByte_of_isDigit (h : isDigit b = true) : lowerByte b = b := by
  have hbounds := bounds_of_isDigit h
  unfold lowerByte
  rw [if_neg]
  simp only [UInt8.le_iff_toNat_le, UInt8.reduceToNat]
  omega

theorem IsNumeric.lowerByte_ne (h : IsNumeric b) : lowerByte b ≠ 120 ∧ b ≠ 95 := by
  unfold IsNumeric at h
  rcases h with hdigit | rfl | rfl | rfl | rfl
  · rw [lowerByte_of_isDigit hdigit]
    exact ⟨ne_of_isDigit hdigit (by decide), ne_of_isDigit hdigit (by decide)⟩
  all_goals decide

variable {form : BinaryFormat} {t : Text} {n places : Nat} {saw : Bool}

/-- How a text without a hexadecimal mark is read. -/
theorem readUnsigned_eq (form : BinaryFormat) (h : ∀ b ∈ t, lowerByte b ≠ 120) :
    form.readUnsigned t =
      let m := readMantissa false ⟨0, 0, false, false, []⟩ t
      if !m.sawDigit then none
      else match m.rest with
        | [] => form.ofScaled 10 m.value (-m.places)
        | b :: rest =>
          if lowerByte b = 101 then
            match exponent? rest with
            | some (e, []) => form.ofScaled 10 m.value (e - m.places)
            | _ => none
          else none := by
  rcases t with _ | ⟨a, _ | ⟨b, _ | ⟨c, rest⟩⟩⟩
  · rfl
  · rfl
  · rfl
  · have hmark : ¬ (a = 48 ∧ lowerByte b = 120) := fun hmark => h b (by simp) hmark.2
    unfold readUnsigned
    simp only [if_neg hmark]
    rfl

/-- A numeral without an exponent. -/
theorem readUnsigned_unmarked (h : ∀ b ∈ t, lowerByte b ≠ 120)
    (hm : readMantissa false ⟨0, 0, false, false, []⟩ t = ⟨n, places, true, saw, []⟩) :
    form.readUnsigned t = form.ofScaled 10 n (-places) := by
  rw [readUnsigned_eq form h, hm]
  rfl

/-- A numeral with an exponent. -/
theorem readUnsigned_marked {rest : Text} (h : ∀ b ∈ t, lowerByte b ≠ 120)
    (hm : readMantissa false ⟨0, 0, false, false, []⟩ t = ⟨n, places, true, saw, 101 :: rest⟩)
    (he : exponent? rest = some (e, [])) : form.readUnsigned t = form.ofScaled 10 n (e - places) := by
  have hmark : lowerByte 101 = 101 := by decide
  rw [readUnsigned_eq form h, hm]
  dsimp only
  rw [if_pos hmark, he]
  rfl

/-! ## Decimals are read -/

/-- Digits with a point among them. -/
def pointed (whole fraction : List Nat) : Text :=
  digitText whole ++ if fraction = [] then [] else 46 :: digitText fraction

theorem readMantissa_pointed (hne : whole ≠ []) (h : ∀ d ∈ whole ++ fraction, d < 10) (rest : Text) :
    readMantissa false ⟨0, 0, false, false, []⟩ (pointed whole fraction ++ rest) =
      readMantissa false ⟨ofDigits 0 (whole ++ fraction), fraction.length, true, !fraction.isEmpty, []⟩ rest := by
  have hwhole : ∀ d ∈ whole, d < 10 := fun d hd => h d (by simp [hd])
  have hfraction : ∀ d ∈ fraction, d < 10 := fun d hd => h d (by simp [hd])
  have hsaw : whole.isEmpty = false := by simpa using hne
  unfold pointed
  rw [List.append_assoc, readMantissa_digits hwhole]
  by_cases hnil : fraction = []
  · simp [hnil, hsaw]
  · have hpoint : fraction.isEmpty = false := by simpa using hnil
    rw [if_neg hnil, List.cons_append, readMantissa_point rfl, readMantissa_digits hfraction]
    simp [hsaw, hpoint, ofDigits_append]

theorem isNumeric_of_mem_pointed (h : ∀ d ∈ whole ++ fraction, d < 10)
    (hb : b ∈ pointed whole fraction) : IsNumeric b := by
  have hwhole : ∀ d ∈ whole, d < 10 := fun d hd => h d (by simp [hd])
  have hfraction : ∀ d ∈ fraction, d < 10 := fun d hd => h d (by simp [hd])
  unfold pointed at hb
  rcases List.mem_append.mp hb with hb | hb
  · exact .inl (isDigit_of_mem_digitText hwhole hb)
  · split at hb
    · simp at hb
    · rcases List.mem_cons.mp hb with rfl | hb
      · exact .inr (.inl rfl)
      · exact .inl (isDigit_of_mem_digitText hfraction hb)

/-- The text of a decimal with an exponent. -/
theorem scientific_eq {a : Nat} {rest : List Nat} (h : d.digits = a :: rest) :
    ∃ k, d.scientific = pointed [a] rest ++
      101 :: (if d.point - 1 < 0 then 45 else 43) :: (List.replicate k 48 ++ ofNat (d.point - 1).natAbs) := by
  have hminus : ("e-" : Text) = [101, 45] := by decide
  have hplus : ("e+" : Text) = [101, 43] := by decide
  refine ⟨2 - (ofNat (d.point - 1).natAbs).length, ?_⟩
  unfold scientific pointed
  rw [h, hminus, hplus]
  cases rest with
  | nil => by_cases hneg : d.point - 1 < 0 <;> simp [digitText, hneg]
  | cons b rest => by_cases hneg : d.point - 1 < 0 <;> simp [digitText, hneg]

/-- The text of a decimal without an exponent. -/
theorem positional_eq (hne : d.digits ≠ []) (hds : ∀ x ∈ d.digits, x < 10) :
    ∃ whole fraction, d.positional = pointed whole fraction ∧ whole ≠ [] ∧ (∀ x ∈ whole ++ fraction, x < 10) ∧
      (ofDigits 0 (whole ++ fraction) * 10 ^ (-(fraction.length : Int)) : ℚ) = d.value := by
  have hlength : 0 < d.digits.length := List.length_pos_iff.mpr hne
  have hzero : ∀ k, ∀ x ∈ List.replicate k 0, x < 10 := by
    intro k x hx
    rw [(List.mem_replicate.mp hx).2]
    omega
  unfold positional value
  dsimp only
  by_cases hpoint : d.point ≤ 0
  · refine ⟨[0], List.replicate (-d.point).toNat 0 ++ d.digits, ?_, by simp, ?_, ?_⟩
    · have hfraction : List.replicate (-d.point).toNat 0 ++ d.digits ≠ [] := by simp [hne]
      rw [if_pos hpoint, if_neg (by omega), show d.point.toNat = 0 by omega, List.drop_zero, pointed, if_neg hfraction]
      rfl
    · simp only [List.singleton_append, List.mem_cons, List.mem_append, forall_eq_or_imp]
      exact ⟨by omega, fun x hx => hx.elim (hzero _ x) (hds x)⟩
    · have hvalue : ofDigits 0 ([0] ++ (List.replicate (-d.point).toNat 0 ++ d.digits)) = ofDigits 0 d.digits := by
        rw [ofDigits_append, ofDigits_append, ofDigits_zeros]
        simp [ofDigits]
      rw [hvalue, List.length_append, List.length_replicate]
      congr 2
      omega
  · rw [if_neg hpoint]
    by_cases hwhole : d.digits.length ≤ d.point.toNat
    · refine ⟨d.digits ++ List.replicate (d.point.toNat - d.digits.length) 0, [], ?_, by simp [hne], ?_, ?_⟩
      · rw [if_pos hwhole, List.take_of_length_le hwhole, pointed, if_pos rfl, ← digitText_zeros]
        simp [digitText]
      · rw [List.append_nil]
        exact fun x hx => (List.mem_append.mp hx).elim (hds x) (hzero _ x)
      · rw [List.append_nil, ofDigits_append, ofDigits_zeros,
          show d.point - d.digits.length = (d.point.toNat - d.digits.length : Nat) by omega]
        simp
    · refine ⟨d.digits.take d.point.toNat, d.digits.drop d.point.toNat, ?_, ?_, ?_, ?_⟩
      · have hfraction : d.digits.drop d.point.toNat ≠ [] := by simpa using hwhole
        rw [if_neg hwhole, List.length_take, show (-d.point).toNat = 0 by omega, pointed, if_neg hfraction,
          show d.point.toNat - min d.point.toNat d.digits.length = 0 by omega]
        simp
      · simp [hne]
        omega
      · rw [List.take_append_drop]
        exact hds
      · rw [List.take_append_drop, List.length_drop]
        congr 2
        omega

/-- The text of a decimal is made of the bytes of decimal notation. -/
theorem isNumeric_of_mem_render (hds : ∀ x ∈ d.digits, x < 10) (hb : b ∈ d.render) : IsNumeric b := by
  have hzero : isDigit 48 = true := by decide
  unfold Decimal.render at hb
  split at hb
  · rw [List.mem_singleton.mp hb]
    exact .inl hzero
  · next hne =>
    have hne : d.digits ≠ [] := by simpa using hne
    split at hb
    · obtain ⟨a, rest, hdigits⟩ := List.exists_cons_of_ne_nil hne
      obtain ⟨k, heq⟩ := scientific_eq hdigits
      rw [hdigits] at hds
      rw [heq] at hb
      simp only [List.mem_append, List.mem_cons, List.mem_replicate] at hb
      rcases hb with hb | rfl | rfl | ⟨-, rfl⟩ | hb
      · exact isNumeric_of_mem_pointed hds hb
      · exact .inr (.inr (.inl rfl))
      · split
        · exact .inr (.inr (.inr (.inr rfl)))
        · exact .inr (.inr (.inr (.inl rfl)))
      · exact .inl hzero
      · exact .inl (isDigit_of_mem_ofNat hb)
    · obtain ⟨whole, fraction, heq, -, hdigits, -⟩ := positional_eq hne hds
      rw [heq] at hb
      exact isNumeric_of_mem_pointed hdigits hb

/-- The text of a decimal is read as a numeral with its value. -/
theorem readUnsigned_render {d : Decimal} (hne : d.digits ≠ []) (hds : ∀ x ∈ d.digits, x < 10)
    (hpoint : (d.point - 1).natAbs < 100000) :
    ∃ n e, form.readUnsigned d.render = form.ofScaled 10 n e ∧ (n * 10 ^ e : ℚ) = d.value := by
  have hx : ∀ b ∈ d.render, lowerByte b ≠ 120 := fun b hb => (isNumeric_of_mem_render hds hb).lowerByte_ne.1
  unfold Decimal.render at hx ⊢
  rw [if_neg (by simpa using hne)] at hx ⊢
  split at hx
  · next hfar =>
    rw [if_pos hfar]
    obtain ⟨a, rest, hdigits⟩ := List.exists_cons_of_ne_nil hne
    obtain ⟨k, heq⟩ := scientific_eq hdigits
    rw [heq] at hx ⊢
    rw [hdigits] at hds
    have hread := readMantissa_pointed (List.cons_ne_nil a []) hds (101 :: (if d.point - 1 < 0 then 45 else 43) ::
      (List.replicate k 48 ++ ofNat (d.point - 1).natAbs))
    rw [readMantissa_mark] at hread
    refine ⟨_, _, readUnsigned_marked hx hread (exponent?_signed hpoint k), ?_⟩
    unfold value
    dsimp only
    rw [hdigits, List.singleton_append, List.length_cons]
    congr 2
    omega
  · next hnear =>
    rw [if_neg hnear]
    obtain ⟨whole, fraction, heq, hwhole, hdigits, hvalue⟩ := positional_eq hne hds
    rw [heq] at hx ⊢
    have hread := readMantissa_pointed hwhole hdigits []
    rw [List.append_nil, readMantissa_nil] at hread
    exact ⟨_, _, readUnsigned_unmarked hx hread, hvalue⟩

/-! ## Numbers are read -/

/-- A format with at most 64 bits of the usual split. -/
structure Standard (form : BinaryFormat) : Prop where
  fraction_pos : 0 < form.fractionBits
  fraction_le : form.fractionBits ≤ 52
  exponent_pos : 0 < form.exponentBits
  exponent_le : form.exponentBits ≤ 11

theorem standard_of_eq (h : form = .single ∨ form = .double) : form.Standard := by
  rcases h with rfl | rfl
  · exact ⟨by decide, by decide, by decide, by decide⟩
  · exact ⟨by decide, by decide, by decide, by decide⟩

variable {m : Nat} {q : Int} {even narrow : Bool}

/-- The exponents of the finite numbers. -/
theorem Standard.exponent_bounds (hform : form.Standard) (hnumber : form.IsNumber m q even narrow)
    (hbits : form.pack m q < form.infinity) : -1074 ≤ q ∧ q < 2048 := by
  have hfraction := hform.fraction_le
  have hexponent := hform.exponent_le
  have hmin : 2 ^ (form.exponentBits - 1) ≤ 2 ^ 10 := Nat.pow_le_pow_right (by omega) (by omega)
  have hmax : 2 ^ form.exponentBits ≤ 2 ^ 11 := Nat.pow_le_pow_right (by omega) hexponent
  have hpos := Nat.one_le_two_pow (n := form.exponentBits - 1)
  have hexponent := hnumber.exponent
  have hfraction' := hform.fraction_pos
  have hcount : (q - form.minExponent).toNat < 2 ^ form.exponentBits - 1 := by
    unfold pack infinity at hbits
    exact Nat.lt_of_mul_lt_mul_right (Nat.lt_of_le_of_lt (Nat.le_add_right _ _) hbits)
  unfold minExponent at hexponent hcount
  omega

/-- The numbers around a finite number are far from the bounds that reading has on their size. -/
theorem Standard.bounds (hform : form.Standard) (hnumber : form.IsNumber m q even narrow) (hm : 0 < m)
    (hbits : form.pack m q < form.infinity) {x : ℚ} (h : RoundsTo m q even narrow x) :
    (10 : ℚ) ^ (-1075 : Int) ≤ x ∧ x < 10 ^ (2101 : Int) := by
  obtain ⟨hmin, hmax⟩ := hform.exponent_bounds hnumber hbits
  have hm' : (1 : ℚ) ≤ m := by exact_mod_cast hm
  have hbound : (m + 1 : ℚ) ≤ 2 ^ (53 : Int) := by
    have hfraction := hform.fraction_le
    have hlt : m + 1 ≤ 2 ^ 53 := hnumber.bound.trans_le (Nat.pow_le_pow_right (by omega) (by omega))
    exact_mod_cast hlt
  constructor
  · calc (10 : ℚ) ^ (-1075 : Int) ≤ 2 ^ (-1075 : Int) := by
          rw [zpow_neg, zpow_neg]
          exact inv_anti₀ (by positivity) (zpow_le_zpow_left₀ (by omega) (by norm_num) (by norm_num))
      _ ≤ 2 ^ (q - 1) := zpow_le_zpow_right₀ (by norm_num) (by omega)
      _ = (1 - 1 / 2) * 2 ^ q := by
        rw [zpow_sub_one₀ two_ne_zero]
        ring
      _ ≤ (m - 1 / 2) * 2 ^ q := by gcongr
      _ ≤ x := h.low_le
  · calc x ≤ (m + 1 / 2) * 2 ^ q := h.bounds.2
      _ < (m + 1) * 2 ^ q := by gcongr; norm_num
      _ ≤ 2 ^ (53 : Int) * 2 ^ (2048 : Int) := by
        gcongr
        exact one_le_two
      _ = 2 ^ (2101 : Int) := by
        rw [← zpow_add₀ two_ne_zero]
        norm_num
      _ ≤ 10 ^ (2101 : Int) := zpow_le_zpow_left₀ (by omega) (by norm_num) (by norm_num)

/-- The place of the first digit of a decimal. -/
theorem scaled_bounds (hn : 0 < n) (e : Int) :
    (10 : ℚ) ^ ((ofNat n).length + e - 1) ≤ n * 10 ^ e ∧ (n * 10 ^ e : ℚ) < 10 ^ ((ofNat n).length + e) := by
  obtain ⟨hpos, hlt, hle⟩ := length_ofNat n
  have hle := hle hn
  generalize (ofNat n).length = k at hpos hlt hle ⊢
  constructor
  · rw [show (k : Int) + e - 1 = (k - 1 : Nat) + e by omega, zpow_add₀ (by norm_num), zpow_natCast]
    gcongr
    exact_mod_cast hle
  · rw [zpow_add₀ (by norm_num), zpow_natCast]
    gcongr
    exact_mod_cast hlt

section

variable (hform : form.Standard) (hnumber : form.IsNumber m q even narrow)

include hform hnumber

/-- So the first digit is near the point. -/
theorem Standard.place_bounds (hm : 0 < m)
    (hbits : form.pack m q < form.infinity) (h : RoundsTo m q even narrow (n * 10 ^ e)) :
    0 < n ∧ -1075 < (ofNat n).length + e ∧ (ofNat n).length + e < 2102 := by
  have hn : 0 < n := by
    have hpos := h.pos hm
    by_contra hzero
    obtain rfl : n = 0 := by omega
    simp at hpos
  obtain ⟨hlow, hhigh⟩ := hform.bounds hnumber hm hbits h
  obtain ⟨hle, hlt⟩ := scaled_bounds hn e
  have hten : (1 : ℚ) < 10 := by norm_num
  have hfirst := (zpow_lt_zpow_iff_right₀ hten).mp (hlow.trans_lt hlt)
  have hlast := (zpow_lt_zpow_iff_right₀ hten).mp (hle.trans_lt hhigh)
  exact ⟨hn, hfirst, by omega⟩

/-- A decimal around a number is read as the number. -/
theorem ofScaled_eq (hm : 0 < m) (hbits : form.pack m q < form.infinity) (h : RoundsTo m q even narrow (n * 10 ^ e)) :
    form.ofScaled 10 n e = some (form.pack m q) := by
  obtain ⟨hn, hlow, hhigh⟩ := hform.place_bounds hnumber hm hbits h
  unfold ofScaled
  rw [if_neg (by omega : ¬ 10 = 2)]
  dsimp only
  rw [if_neg (by omega), if_neg (by omega)]
  split
  · next he =>
    obtain ⟨k, rfl⟩ := Int.eq_ofNat_of_zero_le he
    apply round_eq hnumber hm hbits (by omega)
    simpa using h
  · next he =>
    obtain ⟨k, rfl⟩ := Int.exists_eq_neg_ofNat (by omega : e ≤ 0)
    apply round_eq hnumber hm hbits (by positivity)
    simpa [div_eq_mul_inv] using h

theorem Standard.exists_shortest (hm : 0 < m) :
    ∃ k e, shortest m q even narrow = ofUnits k e ∧ RoundsTo m q even narrow (k * 10 ^ e) := by
  have hwide : 2 ^ (form.fractionBits + 1) ≤ 2 ^ 53 :=
    Nat.pow_le_pow_right (by omega) (Nat.add_le_add_right hform.fraction_le 1)
  have hlt := hnumber.bound.trans_le hwide
  exact shortest_spec hm (by omega)

/-- The text of a finite number, apart from its sign, is read as its bits. -/
theorem readUnsigned_shortest (hbits : form.pack m q < form.infinity) :
    form.readUnsigned (shortest m q even narrow).render = some (form.pack m q) := by
  rcases Nat.eq_zero_or_pos m with rfl | hm
  · have hexponent : q = form.minExponent := by
      have hpow := Nat.two_pow_pos form.fractionBits
      have hnormal := hnumber.normal
      have hle := hnumber.exponent
      omega
    rw [pack, hexponent, sub_self]
    simp [shortest, Decimal.render]
    rfl
  · obtain ⟨k, e, heq, hround⟩ := hform.exists_shortest hnumber hm
    obtain ⟨-, hlow, hhigh⟩ := hform.place_bounds hnumber hm hbits hround
    have hpoint : (ofUnits k e).point = (ofNat k).length + e := by
      rw [← length_digitsOf]
      rfl
    have hne : (ofUnits k e).digits ≠ [] := by
      intro hnil
      have hvalue := value_ofUnits k e
      have hpos := hround.pos hm
      rw [← hvalue, value, hnil] at hpos
      simp [ofDigits] at hpos
    obtain ⟨n, e', hread, hvalue⟩ := @readUnsigned_render form _ hne (fun x hx => lt_of_mem_ofUnits hx) (by omega)
    rw [value_ofUnits] at hvalue
    rw [heq, hread]
    exact ofScaled_eq hform hnumber hm hbits (hvalue ▸ hround)

/-! ## Signs and words -/

theorem Standard.digits_lt :
    ∀ x ∈ (shortest m q even narrow).digits, x < 10 := by
  rcases Nat.eq_zero_or_pos m with rfl | hm
  · simp [shortest]
  · obtain ⟨k, e, heq, -⟩ := hform.exists_shortest hnumber hm
    rw [heq]
    exact fun x hx => lt_of_mem_ofUnits hx

end

theorem head_pointed (hne : whole ≠ []) (h : ∀ d ∈ whole ++ fraction, d < 10) (rest : Text) :
    ∃ b tail, pointed whole fraction ++ rest = b :: tail ∧ isDigit b = true := by
  obtain ⟨a, whole, rfl⟩ := List.exists_cons_of_ne_nil hne
  exact ⟨_, _, rfl, (digit_spec (h a (by simp))).1⟩

/-- The text of a decimal starts with a digit. -/
theorem head_render (hds : ∀ x ∈ d.digits, x < 10) : ∃ b rest, d.render = b :: rest ∧ isDigit b = true := by
  unfold Decimal.render
  split
  · exact ⟨48, [], rfl, by decide⟩
  · next hne =>
    have hne : d.digits ≠ [] := by simpa using hne
    split
    · obtain ⟨a, rest, hdigits⟩ := List.exists_cons_of_ne_nil hne
      obtain ⟨k, heq⟩ := scientific_eq hdigits
      rw [hdigits] at hds
      rw [heq]
      exact head_pointed (List.cons_ne_nil a []) hds _
    · obtain ⟨whole, fraction, heq, hwhole, hdigits, -⟩ := positional_eq hne hds
      rw [heq, ← List.append_nil (pointed whole fraction)]
      exact head_pointed hwhole hdigits []

/-- A number with digits is read after its sign. -/
theorem read?_signed {body : Text} (hhead : ∃ b rest, body = b :: rest ∧ isDigit b = true) (hgap : 95 ∉ body)
    (negative : Bool) :
    form.read? ((if negative then [45] else []) ++ body) =
      (form.readUnsigned body).map ((if negative then form.signBit else 0) + ·) := by
  obtain ⟨b, rest, rfl, hb⟩ := hhead
  have hminus : b ≠ 45 := ne_of_isDigit hb (by decide)
  have hplus : b ≠ 43 := ne_of_isDigit hb (by decide)
  have hword : b ≠ 105 ∧ b ≠ 110 := ⟨ne_of_isDigit hb (by decide), ne_of_isDigit hb (by decide)⟩
  have hinf : ("inf" : Text) = [105, 110, 102] := by decide
  have hinfinity : ("infinity" : Text) = [105, 110, 102, 105, 110, 105, 116, 121] := by decide
  have hnan : ("nan" : Text) = [110, 97, 110] := by decide
  have hsign : lowerByte 45 = 45 := by decide
  have hlower := lowerByte_of_isDigit hb
  unfold read?
  rw [hinf, hinfinity, hnan]
  cases negative with
  | false => simp [dropSign, hminus, hplus, lower, hlower, hword, hgap]
  | true => simp [dropSign, lower, hlower, hword, hsign, hgap]

/-! ## All numbers -/

theorem Standard.infinity_pos (hform : form.Standard) : 0 < form.infinity := by
  unfold infinity
  have hpow : 2 ^ 1 ≤ 2 ^ form.exponentBits := Nat.pow_le_pow_right (by omega) hform.exponent_pos
  exact Nat.mul_pos (by omega) (Nat.two_pow_pos _)

theorem lt_of_round (hform : form.Standard) {num den : Nat} (h : form.round num den = some bits) :
    bits < form.infinity := by
  unfold round at h
  split at h
  · rw [← Option.some.inj h]
    exact hform.infinity_pos
  · rw [Option.ite_none_right_eq_some] at h
    rw [← Option.some.inj h.2]
    exact h.1

theorem lt_of_ofScaled (hform : form.Standard) {base value : Nat}
    (h : form.ofScaled base value e = some bits) : bits < form.infinity := by
  unfold ofScaled at h
  extract_lets magnitude at h
  split at h
  · rw [← Option.some.inj h]
    exact hform.infinity_pos
  · split at h
    · cases h
    · split at h
      · exact lt_of_round hform h
      · exact lt_of_round hform h

/-- What is read of digits is finite. -/
theorem lt_of_readDigits (hform : form.Standard) {hex : Bool} (h : form.readDigits hex t = some bits) :
    bits < form.infinity := by
  unfold readDigits at h
  extract_lets m at h
  split at h
  · cases h
  · split at h
    · split at h
      · cases h
      · exact lt_of_ofScaled hform h
    · rw [Option.ite_none_right_eq_some] at h
      obtain ⟨-, h⟩ := h
      split at h
      · split at h
        · exact lt_of_ofScaled hform h
        · exact lt_of_ofScaled hform h
      · cases h

/-- What reading gives: a signed number, an infinity, or the bits that stand for what is no number. -/
theorem read?_cases (hform : form.Standard) (h : form.read? t = some bits) :
    bits = form.nanBits ∨ ∃ negative : Bool, ∃ u ≤ form.infinity, bits = (if negative then form.signBit else 0) + u := by
  unfold read? at h
  extract_lets sign body word at h
  obtain ⟨negative, hsign⟩ : ∃ negative : Bool, sign = if negative then form.signBit else 0 :=
    ⟨t.head? = some 45, by simp [sign]⟩
  rw [hsign] at h
  split at h
  · exact .inr ⟨_, _, le_rfl, (Option.some.inj h).symm⟩
  · split at h
    · exact .inl (Option.some.inj h).symm
    · split at h
      · cases h
      · obtain ⟨u, hu, heq⟩ := Option.map_eq_some_iff.mp h
        exact .inr ⟨_, u, (lt_of_readDigits hform hu).le, heq.symm⟩

theorem magnitude_signed (negative : Bool) {u : Nat} (h : u < form.signBit) :
    form.magnitude ((if negative then form.signBit else 0) + u) = form.magnitude u ∧
      form.isNegative ((if negative then form.signBit else 0) + u) = negative := by
  obtain ⟨hset, hclear⟩ := form.isNegative_add_signBit h
  cases negative with
  | false => simpa using hclear
  | true => exact ⟨form.magnitude_add_signBit u, hset⟩

theorem magnitude_infinity (hform : form.Standard) : form.magnitude form.infinity = .infinite := by
  have hpow : 2 ^ 1 ≤ 2 ^ form.exponentBits := Nat.pow_le_pow_right (by omega) hform.exponent_pos
  unfold magnitude infinity
  rw [Nat.mul_mod_left, Nat.mul_div_cancel _ (Nat.two_pow_pos _), Nat.mod_eq_of_lt (by omega)]
  simp

/-- The text of every number that can be read is read as the number. -/
theorem read?_render (hform : form = .single ∨ form = .double) (h : form.read? t = some bits) :
    form.read? (form.render bits) = some bits := by
  have hstandard := standard_of_eq hform
  rcases read?_cases hstandard h with rfl | ⟨negative, u, hu, rfl⟩
  · rcases hform with rfl | rfl
    · rfl
    · rfl
  · obtain ⟨hmagnitude, hnegative⟩ := magnitude_signed negative (hu.trans_lt form.infinity_lt_signBit)
    unfold render
    rw [hmagnitude, hnegative]
    rcases hu.eq_or_lt with rfl | hlt
    · rw [magnitude_infinity hstandard]
      cases negative with
      | false => simp only [Bool.false_eq_true, if_false]; rfl
      | true => rfl
    · obtain ⟨m, q, even, narrow, heq, hnumber, hpack⟩ := magnitude_finite hstandard.fraction_pos hlt
      have hdigits := hstandard.digits_lt hnumber
      have hgap : 95 ∉ (shortest m q even narrow).render := fun hmem =>
        (isNumeric_of_mem_render hdigits hmem).lowerByte_ne.2 rfl
      rw [heq]
      dsimp only
      rw [read?_signed (head_render hdigits) hgap, readUnsigned_shortest hstandard hnumber (hpack ▸ hlt), hpack]
      rfl

/-- The bits that reading gives fit in the format. -/
theorem lt_of_read? (hform : form = .single ∨ form = .double) (h : form.read? t = some bits) :
    bits < 2 * form.signBit := by
  have hinfinity := form.infinity_lt_signBit
  rcases read?_cases (standard_of_eq hform) h with rfl | ⟨negative, u, hu, rfl⟩
  · rcases hform with rfl | rfl
    · decide
    · decide
  · split <;> omega

theorem IsNumeric.graphic (h : IsNumeric b) : Text.IsGraphic b := by
  unfold IsNumeric at h
  rcases h with hdigit | rfl | rfl | rfl | rfl
  · have hbounds := bounds_of_isDigit hdigit
    exact ⟨by omega, ne_of_isDigit hdigit (by decide), ne_of_isDigit hdigit (by decide), ne_of_isDigit hdigit (by decide)⟩
  all_goals decide

/-- The text of a number has graphic bytes only. -/
theorem isGraphic_render (hform : form = .single ∨ form = .double) (h : form.read? t = some bits) :
    form.render bits ≠ [] ∧ ∀ b ∈ form.render bits, Text.IsGraphic b := by
  have hstandard := standard_of_eq hform
  have hwords : ∀ w ∈ [("NaN" : Text), ("-Inf" : Text), ("+Inf" : Text)], w ≠ [] ∧ ∀ b ∈ w, Text.IsGraphic b := by
    have hall : [("NaN" : Text), ("-Inf" : Text), ("+Inf" : Text)].all isPlainWord = true := by decide
    exact fun w hw => isPlainWord_iff.mp (List.all_eq_true.mp hall w hw)
  unfold render
  rcases read?_cases hstandard h with rfl | ⟨negative, u, hu, rfl⟩
  · have hnan : form.magnitude form.nanBits = .nan := by
      rcases hform with rfl | rfl
      · rfl
      · rfl
    rw [hnan]
    exact hwords _ (by simp)
  · obtain ⟨hmagnitude, hnegative⟩ := magnitude_signed negative (hu.trans_lt form.infinity_lt_signBit)
    rw [hmagnitude, hnegative]
    rcases hu.eq_or_lt with rfl | hlt
    · rw [magnitude_infinity hstandard]
      cases negative with
      | false => exact hwords _ (by simp)
      | true => exact hwords _ (by simp)
    · obtain ⟨m, q, even, narrow, heq, hnumber, -⟩ := magnitude_finite hstandard.fraction_pos hlt
      have hdigits := hstandard.digits_lt hnumber
      obtain ⟨b, rest, hhead, -⟩ := head_render hdigits
      rw [heq]
      dsimp only
      refine ⟨by simp [hhead], fun c hc => ?_⟩
      rcases List.mem_append.mp hc with hc | hc
      · have hminus : c = 45 := by
          split at hc
          · exact List.mem_singleton.mp hc
          · simp at hc
        rw [hminus]
        exact IsNumeric.graphic (.inr (.inr (.inr (.inr rfl))))
      · exact (isNumeric_of_mem_render hdigits hc).graphic

end BinaryFormat

end CoordSplit
