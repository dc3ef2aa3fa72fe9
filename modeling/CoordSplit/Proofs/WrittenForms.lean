import CoordSplit.Method
import CoordSplit.Proofs.Descriptors
import CoordSplit.Text.Numeral
import Mathlib.Tactic

/-!
# What the written forms of a class share

Numbers, class names and access flags are written the same way in assembly text and in records. Each is read back as
what was written: integers within the range of their word (`Text.intValue_ofInt`), class names
(`ValueType.display_ofClassName`) and flags that have names (`Access.ofNames?_names`).
-/

set_option autoImplicit false

namespace CoordSplit

/-! ## Numerals -/

namespace Text

theorem digitValue_digit {d : Nat} (h : d < 36) : digitValue (digit d) = some d := by
  have hall : ∀ d < 36, digitValue (digit d) = some d := by decide
  exact hall d h

theorem digit_ne_gap {d : Nat} (h : d < 36) : digit d ≠ 95 := by
  have hall : ∀ d < 36, digit d ≠ 95 := by decide
  exact hall d h

variable {base top n : Nat} {i : Int}

/-- The numeral of a number is a digit, or the numeral of its quotient by the base and one more digit. -/
theorem ofNatBase_eq (hbase : 2 ≤ base) (n : Nat) :
    ofNatBase base n = if n < base then [digit n] else ofNatBase base (n / base) ++ [digit (n % base)] := by
  rw [ofNatBase]
  split
  · next h => rw [if_pos (by omega)]
  · next h => rw [if_neg (by omega)]

/-- What holds of all digits holds of all bytes of a numeral. -/
theorem forall_mem_ofNatBase (hbase : 2 ≤ base) {P : UInt8 → Prop} (hP : ∀ d < base, P (digit d))
    (n : Nat) : ∀ b ∈ ofNatBase base n, P b := by
  induction n using Nat.strong_induction_on with
  | h n ih =>
    rw [ofNatBase_eq hbase]
    split
    · next hn => simpa using hP n hn
    · next hn =>
      intro b hb
      rcases List.mem_append.mp hb with hb | hb
      · exact ih (n / base) (Nat.div_lt_self (by omega) (by omega)) b hb
      · rw [List.mem_singleton.mp hb]
        exact hP _ (Nat.mod_lt _ (by omega))

theorem ofNatBase_ne_nil (hbase : 2 ≤ base) (n : Nat) : ofNatBase base n ≠ [] := by
  rw [ofNatBase_eq hbase]
  split <;> simp

/-- Digits are read in two turns. -/
theorem digitsValue_append {gaps : Bool} (s t : Text) (acc : Nat) :
    digitsValue base top gaps acc (s ++ t) =
      (digitsValue base top gaps acc s).bind fun n => digitsValue base top gaps n t := by
  induction s generalizing acc with
  | nil => rfl
  | cons b s ih =>
    rw [List.cons_append, digitsValue, digitsValue]
    split
    · exact ih acc
    · split
      · rfl
      · split
        · rfl
        · split
          · rfl
          · exact ih _

/-- The digits of a number that is not too large have its value. -/
theorem digitsValue_ofNatBase (hbase : 2 ≤ base) (hdigits : base ≤ 36) (gaps : Bool)
    (hn : n ≤ top) : digitsValue base top gaps 0 (ofNatBase base n) = .ok n := by
  have hdigit : ∀ d < base, ∀ acc, acc * base + d ≤ top →
      digitsValue base top gaps acc [digit d] = .ok (acc * base + d) := by
    intro d hd acc hacc
    have hgap : digit d ≠ 95 := digit_ne_gap (by omega)
    simp [digitsValue, hgap, digitValue_digit (show d < 36 by omega), Nat.not_le.mpr hd, Nat.not_lt.mpr hacc]
  induction n using Nat.strong_induction_on with
  | h n ih =>
    rw [ofNatBase_eq hbase]
    split
    · next hlt => simpa using hdigit n hlt 0 (by omega)
    · next hlt =>
      have hquotient : n / base < n := Nat.div_lt_self (by omega) (by omega)
      have hvalue : n / base * base + n % base = n := Nat.div_add_mod' n base
      rw [digitsValue_append, ih _ hquotient (by omega)]
      simpa [Except.bind, hvalue] using hdigit (n % base) (Nat.mod_lt _ (by omega)) (n / base) (by omega)

/-- A numeral in a fixed base has the value that it writes. -/
theorem natValue_fixed (hbase : 2 ≤ base) (hdigits : base ≤ 36) (hn : n ≤ top) :
    natValue (.fixed base) top (ofNatBase base n) = .ok n := by
  have hne : (ofNatBase base n).isEmpty = false := by simpa using ofNatBase_ne_nil hbase n
  simp [natValue, hne, splitBase, digitsValue_ofNatBase hbase hdigits _ hn]

theorem head?_ofNat (hn : 0 < n) : ∃ b rest, ofNat n = b :: rest ∧ b ≠ 48 := by
  induction n using Nat.strong_induction_on with
  | h n ih =>
    rw [ofNat, ofNatBase_eq (by omega)]
    split
    · next hlt =>
      have hall : ∀ d < 10, 0 < d → digit d ≠ 48 := by decide
      exact ⟨_, _, rfl, hall n hlt hn⟩
    · next hlt =>
      obtain ⟨b, rest, heq, hb⟩ := ih (n / 10) (Nat.div_lt_self hn (by omega)) (by omega)
      rw [ofNat] at heq
      exact ⟨b, _, by rw [heq]; rfl, hb⟩

theorem ofNat_zero : ofNat 0 = [48] := by
  rw [ofNat, ofNatBase_eq (by omega)]
  rfl

theorem ofNat_ne_nil (n : Nat) : ofNat n ≠ [] := ofNatBase_ne_nil (by omega) n

/-- A decimal numeral has the value that it writes, also if its base has to be found out. -/
theorem natValue_ofNat (base : Base) (hbase : base = .fixed 10 ∨ base = .detect) (hn : n ≤ top) :
    natValue base top (ofNat n) = .ok n := by
  rcases hbase with rfl | rfl
  · exact natValue_fixed (by omega) (by omega) hn
  · rcases Nat.eq_zero_or_pos n with rfl | hpos
    · simp [ofNat_zero, natValue, splitBase, digitsValue]
    · obtain ⟨b, rest, heq, hb⟩ := head?_ofNat hpos
      have hvalue := digitsValue_ofNatBase (by omega : 2 ≤ 10) (by omega) true hn
      have hgap : (95 : UInt8) ∉ ofNat n := by
        intro hmem
        exact forall_mem_ofNatBase (P := fun b => b ≠ 95) (by omega) (fun d hd => digit_ne_gap (by omega)) n _ hmem rfl
      rw [ofNat] at heq hgap ⊢
      rw [heq] at hvalue hgap ⊢
      simp [natValue, splitBase, hb, hvalue, hgap]

/-- A decimal numeral has no sign. -/
theorem unsigned_ofNat (n : Nat) : dropSign (ofNat n) = ofNat n ∧ (ofNat n).head? ≠ some 45 := by
  obtain ⟨b, rest, heq⟩ := List.exists_cons_of_ne_nil (ofNat_ne_nil n)
  have hb : b ≠ 43 ∧ b ≠ 45 := by
    refine forall_mem_ofNatBase (P := fun b => b ≠ 43 ∧ b ≠ 45) (show 2 ≤ 10 by omega) ?_ n b ?_
    · decide
    · rw [← ofNat, heq]
      simp
  rw [heq]
  simp [dropSign, hb]

/-- A byte that neither ends a word nor starts anything but a word. -/
def IsGraphic (b : UInt8) : Prop := 32 < b.toNat ∧ b ≠ 34 ∧ b ≠ 47 ∧ b ≠ 59

instance (b : UInt8) : Decidable (IsGraphic b) :=
  inferInstanceAs (Decidable (32 < b.toNat ∧ b ≠ 34 ∧ b ≠ 47 ∧ b ≠ 59))

/-- Whether a text consists of graphic bytes, and is not empty. -/
def isPlainWord (t : Text) : Bool := !t.isEmpty && t.all fun b => decide (IsGraphic b)

theorem isPlainWord_iff {t : Text} : isPlainWord t = true ↔ t ≠ [] ∧ ∀ b ∈ t, IsGraphic b := by
  simp [isPlainWord]

theorem isGraphic_of_mem_ofNat {b : UInt8} (h : b ∈ ofNat n) : IsGraphic b := by
  have hdigit : ∀ d < 10, IsGraphic (digit d) := by decide
  exact forall_mem_ofNatBase (P := IsGraphic) (by omega) hdigit n b h

theorem ofInt_ne_nil (i : Int) : ofInt i ≠ [] := by
  unfold ofInt
  split
  · simp
  · exact ofNat_ne_nil _

theorem isGraphic_of_mem_ofInt {b : UInt8} (h : b ∈ ofInt i) : IsGraphic b := by
  unfold ofInt at h
  split at h
  · rcases List.mem_cons.mp h with rfl | h
    · decide
    · exact isGraphic_of_mem_ofNat h
  · exact isGraphic_of_mem_ofNat h

/-- A numeral that is read as a signed integer of a width has a value of that width. -/
theorem bounds_of_intValue {base : Base} {bits : Nat} {t : Text} (h : intValue base bits t = .ok i) :
    -((2 ^ (bits - 1) : Nat) : Int) ≤ i ∧ i < ((2 ^ (bits - 1) : Nat) : Int) := by
  have hpos : 0 < 2 ^ (bits - 1) := Nat.two_pow_pos _
  unfold intValue at h
  generalize 2 ^ (bits - 1) = k at h hpos ⊢
  split at h
  · cases h
  · dsimp only at h
    split at h
    · cases h
    · next n _ =>
      split_ifs at h with hlarge hsmall hneg
      all_goals
        obtain rfl := Except.ok.inj h
        simp only [hneg, decide_true, decide_false, Bool.not_true, Bool.not_false, Bool.true_and, Bool.false_and,
          decide_eq_true_eq, Bool.false_eq_true] at hlarge hsmall
        omega

/-- An integer of a word is read back from its numeral. -/
theorem intValue_ofInt {bits : Nat} (hbits : 0 < bits) (hlow : -((2 ^ (bits - 1) : Nat) : Int) ≤ i)
    (hhigh : i < ((2 ^ (bits - 1) : Nat) : Int)) (base : Base) (hbase : base = .fixed 10 ∨ base = .detect) :
    intValue base bits (ofInt i) = .ok i := by
  obtain ⟨k, hk⟩ : ∃ k, k = 2 ^ (bits - 1) := ⟨_, rfl⟩
  have hdouble : 2 ^ bits = 2 * k := by
    rw [hk, ← Nat.pow_succ', Nat.succ_eq_add_one, Nat.sub_add_cancel hbits]
  rw [← hk] at hlow hhigh
  have hvalue : natValue base (2 ^ bits - 1) (ofNat i.natAbs) = .ok i.natAbs :=
    natValue_ofNat base hbase (by omega)
  obtain ⟨hdrop, hhead⟩ := unsigned_ofNat i.natAbs
  rw [ofInt]
  split
  · next hneg =>
    have hrange : ¬ k < i.natAbs := by omega
    have hi : -(i.natAbs : Int) = i := by omega
    simp only [intValue, List.isEmpty_cons, Bool.false_eq_true, if_false, dropSign, or_true, if_true, hvalue,
      List.head?_cons, decide_true, Bool.not_true, Bool.false_and, Bool.true_and, ← hk, decide_eq_true_eq, hrange, hi]
  · next hpos =>
    have hne : (ofNat i.natAbs).isEmpty = false := by simpa using ofNat_ne_nil i.natAbs
    have hrange : ¬ k ≤ i.natAbs := by omega
    have hi : (i.natAbs : Int) = i := by omega
    simp only [intValue, hne, Bool.false_eq_true, if_false, hdrop, hvalue, hhead, decide_false, Bool.not_false,
      Bool.true_and, Bool.false_and, ← hk, hrange, hi]

end Text

/-! ## Class names -/

namespace ValueType

/-- A class reference is displayed by its name. -/
@[simp] theorem display_ofClassName (name : Text) : (ofClassName name).display = name := by
  rcases ofClassName_cases name with h | ⟨elem, h, hdesc⟩
  · rw [h]
    rfl
  · rw [h]
    exact hdesc

end ValueType

/-! ## Access flags -/

namespace Access

/-- The flags that have a name. -/
def nameable : UInt16 := accessNames.foldr (fun p bits => p.1 ||| bits) 0

/-- Every flag that is set has a name. -/
def Named (a : Access) : Prop := a.bits &&& nameable = a.bits

/-- The flags that names stand for, if all of them do. -/
def ofNames? : List Text → Option Access
  | [] => some .none
  | f :: rest => (ofName? f).bind fun a => (ofNames? rest).map a.union

variable {a : Access}

theorem named_of_ofName? {f : Text} (h : ofName? f = some a) : a.Named := by
  have hall : ∀ p ∈ accessNames, (⟨p.1⟩ : Access).bits &&& nameable = p.1 := by decide
  obtain ⟨p, hp, rfl⟩ := Option.map_eq_some_iff.mp h
  exact hall p (List.mem_of_find?_eq_some hp)

theorem and_or (x y z : UInt16) : x &&& (y ||| z) = x &&& y ||| x &&& z :=
  UInt16.eq_of_toBitVec_eq (by simp [BitVec.and_or_distrib_left])

/-- Names stand for flags that have names. -/
theorem named_of_ofNames? {fs : List Text} (h : ofNames? fs = some a) : a.Named := by
  induction fs generalizing a with
  | nil =>
    rw [← Option.some.inj h, Named]
    decide
  | cons f fs ih =>
    obtain ⟨x, hx, h⟩ := Option.bind_eq_some_iff.mp h
    obtain ⟨y, hy, rfl⟩ := Option.map_eq_some_iff.mp h
    have hfirst := named_of_ofName? hx
    have hrest := ih hy
    rw [Named, UInt16.and_comm] at hfirst hrest
    rw [Named, union, UInt16.and_comm, and_or, hfirst, hrest]

/-- A flag is one bit. -/
theorem and_flag {p : UInt16 × String} (hp : p ∈ accessNames) (bits : UInt16) :
    bits &&& p.1 = if bits &&& p.1 ≠ 0 then p.1 else 0 := by
  have hbit : ∀ p ∈ accessNames, ∃ i < 16, p.1.toBitVec = BitVec.twoPow 16 i := by decide
  obtain ⟨i, -, hi⟩ := hbit p hp
  split
  · next h =>
    apply UInt16.eq_of_toBitVec_eq
    have hand := BitVec.and_twoPow bits.toBitVec i
    rw [← hi] at hand
    rw [UInt16.toBitVec_and]
    split at hand
    · exact hand
    · exact absurd (UInt16.eq_of_toBitVec_eq hand) h
  · next h => simpa using h

/-- The names of the flags that have one stand for them. -/
theorem ofNames?_names (h : a.Named) : ofNames? a.names = some a := by
  have hname : ∀ p ∈ accessNames, ofName? (Text.ofString p.2) = some ⟨p.1⟩ := by decide
  have hnames : ∀ ps : List (UInt16 × String), (∀ p ∈ ps, p ∈ accessNames) →
      ofNames? (ps.filterMap fun p => if a.bits &&& p.1 ≠ 0 then some (Text.ofString p.2) else Option.none) =
        some ⟨a.bits &&& ps.foldr (fun p bits => p.1 ||| bits) 0⟩ := by
    intro ps hps
    induction ps with
    | nil => simp [ofNames?, none]
    | cons p ps ih =>
      have hrest := ih fun q hq => hps q (List.mem_cons_of_mem _ hq)
      have hp := hps p (List.mem_cons_self ..)
      rw [List.foldr_cons, and_or, and_flag hp, List.filterMap_cons]
      by_cases hset : a.bits &&& p.1 ≠ 0
      · simp only [if_pos hset]
        rw [ofNames?, hname p hp, hrest]
        rfl
      · simp only [if_neg hset]
        rw [UInt16.zero_or, hrest]
  have hall := hnames accessNames fun p hp => hp
  rw [Named] at h
  rw [names, hall, ← nameable, h]

/-- A reader of flags that refuses what has no flag reads exactly the names of flags. -/
theorem ok_iff_ofNames? {ε : Type} {f : List Text → Except ε Access} (hnil : f [] = .ok none)
    (hunknown : ∀ n rest, ofName? n = .none → ∃ e, f (n :: rest) = .error e)
    (hknown : ∀ n rest a, ofName? n = some a → f (n :: rest) = (f rest).map a.union) {fs : List Text} :
    f fs = .ok a ↔ ofNames? fs = some a := by
  induction fs generalizing a with
  | nil => simp [hnil, ofNames?]
  | cons n fs ih =>
    rw [ofNames?]
    cases hn : ofName? n with
    | none =>
      obtain ⟨e, he⟩ := hunknown n fs hn
      simp [he]
    | some b =>
      rw [hknown n fs b hn, Option.bind_some, Option.map_eq_some_iff]
      cases hfs : f fs with
      | error e =>
        simp only [Except.map, reduceCtorEq, false_iff]
        rintro ⟨c, hc, -⟩
        rw [ih.mpr hc] at hfs
        cases hfs
      | ok c => simp [Except.map, ← ih, hfs]

end Access

/-! ## Numbered labels -/

/-- Looking up a key among numbered ones gives the number of its first occurrence. -/
theorem lookup_zipIdx {α : Type} (f : Nat → α) (ids : List InsnId) (n : Nat) (id : InsnId) :
    ((ids.zipIdx n).map fun p => (p.1, f p.2)).lookup id =
      if id ∈ ids then some (f (n + ids.idxOf id)) else none := by
  induction ids generalizing n with
  | nil => rfl
  | cons q ids ih =>
    rw [List.zipIdx_cons, List.map_cons, List.lookup_cons, ih]
    by_cases h : id = q
    · subst h
      simp
    · have hne : (id == q) = false := by simpa using h
      simp only [hne, List.mem_cons, h, false_or]
      rw [List.idxOf_cons_ne _ (Ne.symm h)]
      split
      · rw [show n + 1 + ids.idxOf id = n + (ids.idxOf id + 1) by omega]
      · rfl

end CoordSplit
