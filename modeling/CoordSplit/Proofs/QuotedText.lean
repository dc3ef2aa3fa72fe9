import CoordSplit.Proofs.WrittenForms
import CoordSplit.Text.Quoted

/-!
# Quoted text is read back

Every string of bytes is what its quoted form stands for (`Text.unquote_quote`). A text is quoted piece by piece, and
each piece is read back in front of anything (`unquoteBody_quotePiece`): characters are written by bytes that start no
other character (`Piece.Proper`), and escapes end where they say. Quotes and ends of lines stand in quoted text only
behind a backslash (`quotePiece_shape`).
-/

set_option autoImplicit false

namespace CoordSplit.Text

/-! ## Characters -/

variable {n code width : Nat} {b a c : UInt8} {p : Piece}

theorem isScalar_iff : isScalar n = true ↔ n < 55296 ∨ 57343 < n ∧ n < 1114112 := by simp [isScalar]

theorem val_ofNat (h : isScalar n = true) : (Char.ofNat n).val.toNat = n := by
  have hvalid : n.isValidChar := isScalar_iff.mp h
  unfold Char.ofNat
  rw [dif_pos hvalid]
  rfl

/-- The bytes of a code point, by its size. -/
theorem ofCode_eq (h : isScalar code = true) :
    ofCode code =
      if code ≤ 127 then [UInt8.ofNat code]
      else if code ≤ 2047 then [UInt8.ofNat (code / 64 % 32 + 192), UInt8.ofNat (code % 64 + 128)]
      else if code ≤ 65535 then
        [UInt8.ofNat (code / 4096 % 16 + 224), UInt8.ofNat (code / 64 % 64 + 128), UInt8.ofNat (code % 64 + 128)]
      else [UInt8.ofNat (code / 262144 % 8 + 240), UInt8.ofNat (code / 4096 % 64 + 128),
        UInt8.ofNat (code / 64 % 64 + 128), UInt8.ofNat (code % 64 + 128)] := by
  unfold ofCode String.utf8EncodeChar
  rw [if_pos h, val_ofNat h]

theorem ofCode_of_lt (h : code < 128) : ofCode code = [code.toUInt8] := by
  rw [ofCode_eq (isScalar_iff.mpr (by omega)), if_pos (by omega)]

theorem lt_of_isScalar (h : isScalar code = true) : code < 1114112 := by
  rw [isScalar_iff] at h
  omega

theorem length_ofCode (h : isScalar code = true) : 1 ≤ (ofCode code).length ∧ (ofCode code).length ≤ 4 := by
  rw [ofCode_eq h]
  split_ifs <;> simp

/-- Beyond ASCII no byte of a character is an ASCII character. -/
theorem le_of_mem_ofCode (h : isScalar code = true) (hcode : 128 ≤ code) (hb : b ∈ ofCode code) : 128 ≤ b.toNat := by
  have hbound := lt_of_isScalar h
  rw [ofCode_eq h, if_neg (by omega)] at hb
  split_ifs at hb
  all_goals
    simp only [List.mem_cons, List.not_mem_nil, or_false, ← UInt8.toNat_inj, UInt8.toNat_ofNat'] at hb
    omega

theorem le_of_isPrintable (h : isPrintable code = true) : 32 ≤ code := by
  have hranges : ∀ r ∈ printableRanges, 32 ≤ r.1 := by decide +kernel
  simp only [isPrintable, List.any_eq_true, Bool.and_eq_true, decide_eq_true_eq] at h
  obtain ⟨r, hr, hlow, -⟩ := h
  have hr := hranges r hr
  omega

/-- A character of a text: its bytes are those of its code point, and are read as it in front of anything. -/
def Piece.Proper : Piece → Prop
  | .char code bytes =>
    isScalar code = true ∧ bytes = ofCode code ∧ ∀ tail, pieces (bytes ++ tail) = .char code bytes :: pieces tail
  | .stray _ => True

theorem ofNat_eq (h : n = b.toNat) : UInt8.ofNat n = b := by
  rw [h, UInt8.ofNat_toNat]

theorem proper_one (ha : a < 0x80) : Piece.Proper (.char a.toNat [a]) := by
  have hlt : a.toNat < 128 := ha
  have hscalar : isScalar a.toNat = true := isScalar_iff.mpr (by omega)
  refine ⟨hscalar, ?_, ?_⟩
  · rw [ofCode_eq hscalar, if_pos (by omega), UInt8.ofNat_toNat]
  · intro tail
    rw [List.singleton_append, pieces.eq_def]
    simp [ha]

theorem not_lt_of_le (h : 128 ≤ a.toNat) : ¬ a < 0x80 := by
  simp only [UInt8.lt_iff_toNat_lt, UInt8.reduceToNat]
  omega

theorem proper_two (h : ((0xC2 ≤ a && a ≤ 0xDF) && isTail b) = true) :
    Piece.Proper (.char (a.toNat % 32 * 64 + tailBits b) [a, b]) := by
  have hbytes : (194 ≤ a.toNat ∧ a.toNat ≤ 223) ∧ 128 ≤ b.toNat ∧ b.toNat ≤ 191 := by
    simpa [isTail, UInt8.le_iff_toNat_le] using h
  unfold tailBits
  have hscalar : isScalar (a.toNat % 32 * 64 + b.toNat % 64) = true := isScalar_iff.mpr (by omega)
  refine ⟨hscalar, ?_, ?_⟩
  · rw [ofCode_eq hscalar, if_neg (by omega), if_pos (by omega), ofNat_eq (b := a) (by omega),
      ofNat_eq (b := b) (by omega)]
  · intro tail
    rw [List.cons_append, List.singleton_append, pieces.eq_def]
    dsimp only
    rw [if_neg (not_lt_of_le (by omega)), if_pos h]
    rfl

/-- The bounds on the byte behind a lead byte. -/
theorem bounds_of_isSecond (h : isSecond a b = true) :
    (128 ≤ b.toNat ∧ b.toNat ≤ 191) ∧ (a.toNat = 224 → 160 ≤ b.toNat) ∧ (a.toNat = 237 → b.toNat ≤ 159) ∧
      (a.toNat = 240 → 144 ≤ b.toNat) ∧ (a.toNat = 244 → b.toNat ≤ 143) := by
  unfold isSecond at h
  simp only [← UInt8.toNat_inj, UInt8.reduceToNat] at h
  split_ifs at h
  all_goals
    simp only [isTail, Bool.and_eq_true, decide_eq_true_eq, UInt8.le_iff_toNat_le, UInt8.reduceToNat] at h
    omega

theorem not_two (h : 224 ≤ a.toNat) : ¬ ((0xC2 ≤ a && a ≤ 0xDF) && isTail b) = true := by
  simp only [Bool.and_eq_true, decide_eq_true_eq, UInt8.le_iff_toNat_le, UInt8.reduceToNat]
  omega

/-- A character of three bytes. -/
theorem proper_three (h : ((0xE0 ≤ a && a ≤ 0xEF) && isSecond a b && isTail c) = true) :
    Piece.Proper (.char (a.toNat % 16 * 4096 + tailBits b * 64 + tailBits c) [a, b, c]) := by
  obtain ⟨⟨⟨hlow, hhigh⟩, hsecond⟩, hthird⟩ : ((224 ≤ a.toNat ∧ a.toNat ≤ 239) ∧ isSecond a b = true) ∧
      128 ≤ c.toNat ∧ c.toNat ≤ 191 := by
    simpa [isTail, UInt8.le_iff_toNat_le] using h
  have hbounds := bounds_of_isSecond hsecond
  unfold tailBits
  have hscalar : isScalar (a.toNat % 16 * 4096 + b.toNat % 64 * 64 + c.toNat % 64) = true := isScalar_iff.mpr (by omega)
  refine ⟨hscalar, ?_, ?_⟩
  · rw [ofCode_eq hscalar, if_neg (by omega), if_neg (by omega), if_pos (by omega), ofNat_eq (b := a) (by omega),
      ofNat_eq (b := b) (by omega), ofNat_eq (b := c) (by omega)]
  · intro tail
    rw [List.cons_append, List.cons_append, List.singleton_append, pieces.eq_def]
    dsimp only
    rw [if_neg (not_lt_of_le (by omega)), if_neg (not_two hlow), if_pos h]
    rfl

/-- A character of four bytes. -/
theorem proper_four {d : UInt8} (h : ((0xF0 ≤ a && a ≤ 0xF4) && isSecond a b && isTail c && isTail d) = true) :
    Piece.Proper (.char (a.toNat % 8 * 262144 + tailBits b * 4096 + tailBits c * 64 + tailBits d) [a, b, c, d]) := by
  obtain ⟨⟨⟨⟨hlow, hhigh⟩, hsecond⟩, hthird⟩, hfourth⟩ : (((240 ≤ a.toNat ∧ a.toNat ≤ 244) ∧ isSecond a b = true) ∧
      128 ≤ c.toNat ∧ c.toNat ≤ 191) ∧ 128 ≤ d.toNat ∧ d.toNat ≤ 191 := by
    simpa [isTail, UInt8.le_iff_toNat_le] using h
  have hbounds := bounds_of_isSecond hsecond
  have hthree : ¬ ((0xE0 ≤ a && a ≤ 0xEF) && isSecond a b && isTail c) = true := by
    simp only [Bool.and_eq_true, decide_eq_true_eq, UInt8.le_iff_toNat_le, UInt8.reduceToNat]
    omega
  unfold tailBits
  have hscalar : isScalar (a.toNat % 8 * 262144 + b.toNat % 64 * 4096 + c.toNat % 64 * 64 + d.toNat % 64) = true :=
    isScalar_iff.mpr (by omega)
  refine ⟨hscalar, ?_, ?_⟩
  · rw [ofCode_eq hscalar, if_neg (by omega), if_neg (by omega), if_neg (by omega), ofNat_eq (b := a) (by omega),
      ofNat_eq (b := b) (by omega), ofNat_eq (b := c) (by omega), ofNat_eq (b := d) (by omega)]
  · intro tail
    rw [List.cons_append, List.cons_append, List.cons_append, List.singleton_append, pieces.eq_def]
    dsimp only
    rw [if_neg (not_lt_of_le (by omega)), if_neg (not_two (by omega)), if_neg hthree, if_pos h]
    rfl

/-- The pieces of a text are characters with their own bytes, and stray bytes. -/
theorem proper_of_mem_pieces {t : Text} : ∀ p ∈ pieces t, p.Proper := by
  fun_induction pieces t with
  | case1 => simp
  | case2 a rest ha ih => exact List.forall_mem_cons.mpr ⟨proper_one ha, ih⟩
  | case3 a ha => exact List.forall_mem_singleton.mpr trivial
  | case4 a ha b rest htwo ih => exact List.forall_mem_cons.mpr ⟨proper_two htwo, ih⟩
  | case5 a ha b htwo ih => exact List.forall_mem_cons.mpr ⟨trivial, ih⟩
  | case6 a ha b htwo c rest hthree ih => exact List.forall_mem_cons.mpr ⟨proper_three hthree, ih⟩
  | case7 a ha b htwo c hthree ih => exact List.forall_mem_cons.mpr ⟨trivial, ih⟩
  | case8 a ha b htwo c hthree d rest hfour ih => exact List.forall_mem_cons.mpr ⟨proper_four hfour, ih⟩
  | case9 a ha b htwo c hthree d rest hfour ih => exact List.forall_mem_cons.mpr ⟨trivial, ih⟩

/-! ## Hexadecimal escapes -/

/-- Digits are taken in two turns. -/
theorem takeHex_append (m n acc : Nat) (t : Text) :
    takeHex (m + n) acc t = (takeHex m acc t).bind fun p => takeHex n p.1 p.2 := by
  induction m generalizing acc t with
  | zero => simp [takeHex]
  | succ m ih =>
    rw [show m + 1 + n = m + n + 1 by omega]
    cases t with
    | nil => simp [takeHex]
    | cons b t =>
      simp only [takeHex]
      split
      · split
        · exact ih _ _
        · rfl
      · rfl

theorem takeHex_digit {d : Nat} (h : d < 16) (acc : Nat) (rest : Text) :
    takeHex 1 acc (digit d :: rest) = some (16 * acc + d, rest) := by
  simp [takeHex, digitValue_digit (by omega : d < 36), h]

theorem takeHex_zeros (k : Nat) (rest : Text) : takeHex k 0 (List.replicate k 48 ++ rest) = some (0, rest) := by
  induction k with
  | zero => rfl
  | succ k ih =>
    have hzero : digitValue 48 = some 0 := by decide
    simp [List.replicate_succ, takeHex, hzero, ih]

/-- Digits are read back. -/
theorem takeHex_hex (n : Nat) (rest : Text) : takeHex (hex n).length 0 (hex n ++ rest) = some (n, rest) := by
  unfold hex
  induction n using Nat.strong_induction_on generalizing rest with
  | h n ih =>
    rw [ofNatBase_eq (by omega)]
    split
    · next hn => simpa using takeHex_digit hn 0 rest
    · next hn =>
      have hquotient := ih (n / 16) (by omega) (digit (n % 16) :: rest)
      rw [List.length_append, List.length_singleton, takeHex_append, List.append_assoc, List.singleton_append, hquotient,
        Option.bind_some, takeHex_digit (by omega)]
      congr 2
      omega

/-- A small number has few digits. -/
theorem length_hex_le (hwidth : 0 < width) (h : n < 16 ^ width) : (hex n).length ≤ width := by
  unfold hex
  induction width generalizing n with
  | zero => omega
  | succ width ih =>
    rw [ofNatBase_eq (by omega)]
    split
    · simp
    · next hn =>
      have hpos : 0 < width := by
        by_contra hzero
        obtain rfl : width = 0 := by omega
        omega
      have hquotient := ih hpos (n := n / 16) (by rw [pow_succ] at h; omega)
      simp only [List.length_append, List.length_singleton]
      omega

/-- A padded hexadecimal numeral is read as far as it is wide. -/
theorem takeHex_hexPadded (hwidth : 0 < width) (h : n < 16 ^ width) (rest : Text) :
    takeHex width 0 (hexPadded width n ++ rest) = some (n, rest) := by
  have hlength := length_hex_le hwidth h
  have hsum : width = (width - (hex n).length) + (hex n).length := by omega
  unfold hexPadded
  dsimp only
  rw [List.append_assoc]
  nth_rewrite 1 [hsum]
  rw [takeHex_append, takeHex_zeros, Option.bind_some, takeHex_hex]

/-! ## Pieces -/

/-- The escape of a character or a byte is read as it. -/
theorem unquoteBody_escape {tail rest bytes : Text} (h : unescape c tail = some (bytes, rest)) (fuel : Nat) :
    unquoteBody (fuel + 1) (92 :: c :: tail) = (unquoteBody fuel rest).map (bytes ++ ·) := by
  rw [unquoteBody]
  simp [h]

theorem unescape_byte (h : n < 256) (rest : Text) :
    unescape 120 (hexPadded 2 n ++ rest) = some ([n.toUInt8], rest) := by
  have hcode : escapeCode 120 = none := by decide
  simp [unescape, hcode, takeHex_hexPadded (by omega : 0 < 2) h]

theorem unescape_code (hc : c = 117 ∧ width = 4 ∨ c = 85 ∧ width = 8)
    (h : n < 16 ^ width) (hn : isScalar n = true) (rest : Text) :
    unescape c (hexPadded width n ++ rest) = some (ofCode n, rest) := by
  have hshort : escapeCode 117 = none := by decide
  have hlong : escapeCode 85 = none := by decide
  rcases hc with ⟨rfl, rfl⟩ | ⟨rfl, rfl⟩
  · simp [unescape, hshort, takeHex_hexPadded (by omega : 0 < 4) h, hn]
  · simp [unescape, hlong, takeHex_hexPadded (by omega : 0 < 8) h, hn]

theorem unescape_letter {letter : UInt8} (h : escapeLetter code = some letter) (rest : Text) :
    code < 128 ∧ unescape letter rest = some ([code.toUInt8], rest) := by
  unfold escapeLetter at h
  split at h
  all_goals first | cases h; exact ⟨by omega, rfl⟩ | cases h

/-- A character that is written as itself is read as it. -/
theorem unquoteBody_char {bytes : Text} (hp : Piece.Proper (.char code bytes)) (hquote : code ≠ 34)
    (hslash : code ≠ 92) (hprint : isPrintable code = true) (fuel : Nat) (rest : Text) :
    unquoteBody (fuel + 1) (bytes ++ rest) = (unquoteBody fuel rest).map (bytes ++ ·) := by
  obtain ⟨hscalar, hbytes, hread⟩ := hp
  have hfirst := le_of_isPrintable hprint
  by_cases hascii : code < 128
  · have hcode : code.toUInt8.toNat = code := by simp [Nat.mod_eq_of_lt (by omega : code < 256)]
    rw [hbytes, ofCode_of_lt hascii, List.singleton_append, unquoteBody.eq_def]
    dsimp only
    simp only [← UInt8.toNat_inj, UInt8.lt_iff_toNat_lt, UInt8.reduceToNat, hcode]
    rw [if_neg hquote, if_neg (by omega), if_neg hslash, if_pos hascii]
    rfl
  · have hhigh : ∀ {b : UInt8}, b ∈ ofCode code → 128 ≤ b.toNat := le_of_mem_ofCode hscalar (by omega)
    have hlength := length_ofCode hscalar
    rw [← hbytes] at hhigh hlength
    cases bytes with
    | nil => simp at hlength
    | cons b bytes =>
      have hb := hhigh (List.mem_cons_self ..)
      -- The three bytes looked at hold the rest of the character.
      have htake : b :: (bytes ++ rest).take 3 = b :: bytes ++ rest.take (3 - bytes.length) := by
        rw [List.take_append, List.take_of_length_le (by simpa [Nat.lt_succ_iff] using hlength.2)]
        rfl
      rw [List.cons_append, unquoteBody.eq_def]
      dsimp only
      rw [htake, hread]
      simp only [← UInt8.toNat_inj, UInt8.lt_iff_toNat_lt, UInt8.reduceToNat]
      rw [if_neg (by omega), if_neg (by omega), if_neg (by omega), if_neg (by omega)]
      simp

/-- Each piece of a text is read back, whatever follows. -/
theorem unquoteBody_quotePiece (hp : p.Proper) (fuel : Nat) (rest : Text) :
    unquoteBody (fuel + 1) (quotePiece p ++ rest) = (unquoteBody fuel rest).map (p.bytes ++ ·) := by
  cases p with
  | stray b =>
    have hb := unescape_byte (UInt8.toNat_lt b) rest
    rw [quotePiece, List.cons_append, List.cons_append, unquoteBody_escape hb]
    simp [Piece.bytes]
  | char code bytes =>
    obtain ⟨hscalar, hbytes, -⟩ := id hp
    rw [quotePiece, quoteCode, Piece.bytes]
    split
    · next hself =>
      have hascii : code < 128 := by
        simp only [UInt8.reduceToNat] at hself
        omega
      have hcode : unescape code.toUInt8 rest = some ([code.toUInt8], rest) := by
        rcases hself with rfl | rfl <;> rfl
      rw [List.cons_append, List.singleton_append, unquoteBody_escape hcode, hbytes, ofCode_of_lt hascii]
    · next hself =>
      simp only [UInt8.reduceToNat, not_or] at hself
      split
      · next hprint =>
        rw [← hbytes]
        exact unquoteBody_char hp hself.1 hself.2 hprint fuel rest
      · split
        · next letter hletter =>
          obtain ⟨hascii, hread⟩ := unescape_letter hletter rest
          rw [List.cons_append, List.singleton_append, unquoteBody_escape hread, hbytes, ofCode_of_lt hascii]
        · split
          · next hcontrol =>
            rw [List.cons_append, List.cons_append, unquoteBody_escape (unescape_byte (by omega) rest), hbytes,
              ofCode_of_lt (by omega)]
          · split
            · next hshort =>
              rw [List.cons_append, List.cons_append,
                unquoteBody_escape (unescape_code (.inl ⟨rfl, rfl⟩) (by omega) hscalar rest), hbytes]
            · have hbound := lt_of_isScalar hscalar
              rw [List.cons_append, List.cons_append,
                unquoteBody_escape (unescape_code (.inr ⟨rfl, rfl⟩) (by omega) hscalar rest), hbytes]

/-- A byte that stands for itself between quotes and ends nothing there. -/
def IsBare (b : UInt8) : Prop := b ≠ 34 ∧ b ≠ 10 ∧ b ≠ 92

theorem isBare_of_mem_hexPadded (h : b ∈ hexPadded width n) : IsBare b := by
  have hdigit : ∀ d < 16, digit d ≠ 34 ∧ digit d ≠ 10 ∧ digit d ≠ 92 := by decide
  unfold hexPadded at h
  rcases List.mem_append.mp h with hzero | hdigits
  · rw [(List.mem_replicate.mp hzero).2]
    exact hdigit 0 (by omega)
  · exact forall_mem_ofNatBase (P := IsBare) (by omega) hdigit n b hdigits

/-- A quoted piece is written by bytes that stand for themselves, behind a backslash and any byte at most. -/
theorem quotePiece_shape (hp : p.Proper) :
    (quotePiece p ≠ [] ∧ ∀ b ∈ quotePiece p, IsBare b) ∨
      ∃ c rest, quotePiece p = 92 :: c :: rest ∧ ∀ b ∈ rest, IsBare b := by
  cases p with
  | stray b => exact .inr ⟨_, _, rfl, fun b hb => isBare_of_mem_hexPadded hb⟩
  | char code bytes =>
    obtain ⟨hscalar, -, -⟩ := hp
    rw [quotePiece, quoteCode]
    split
    · exact .inr ⟨_, _, rfl, by simp⟩
    · next hself =>
      simp only [UInt8.reduceToNat, not_or] at hself
      split
      · next hprint =>
        have hfirst := le_of_isPrintable hprint
        refine .inl ⟨List.length_pos_iff.mp (length_ofCode hscalar).1, fun b hb => ?_⟩
        unfold IsBare
        simp only [ne_eq, ← UInt8.toNat_inj, UInt8.reduceToNat]
        by_cases hascii : code < 128
        · rw [ofCode_of_lt hascii, List.mem_singleton] at hb
          have hcode : b.toNat = code := by simp [hb, Nat.mod_eq_of_lt (by omega : code < 256)]
          omega
        · have hhigh := le_of_mem_ofCode hscalar (by omega) hb
          omega
      · split
        · exact .inr ⟨_, _, rfl, by simp⟩
        · split_ifs <;> exact .inr ⟨_, _, rfl, fun b hb => isBare_of_mem_hexPadded hb⟩

theorem quotePiece_ne_nil (hp : p.Proper) : quotePiece p ≠ [] := by
  rcases quotePiece_shape hp with ⟨hne, -⟩ | ⟨c, rest, heq, -⟩
  · exact hne
  · simp [heq]

theorem unquoteBody_quote (ps : List Piece) (h : ∀ p ∈ ps, p.Proper) (k : Nat) :
    unquoteBody (ps.length + k + 1) (ps.flatMap quotePiece ++ [34]) = some (ps.flatMap Piece.bytes) := by
  induction ps with
  | nil => simp [unquoteBody]
  | cons p ps ih =>
    have hfuel : ps.length + 1 + k + 1 = ps.length + k + 1 + 1 := by omega
    rw [List.flatMap_cons, List.append_assoc, List.length_cons, hfuel, unquoteBody_quotePiece (h p (by simp)),
      ih fun q hq => h q (by simp [hq])]
    rfl

theorem length_le_quote {ps : List Piece} (h : ∀ p ∈ ps, p.Proper) : ps.length ≤ (ps.flatMap quotePiece).length := by
  induction ps with
  | nil => simp
  | cons p ps ih =>
    have hp := List.length_pos_iff.mpr (quotePiece_ne_nil (h p (by simp)))
    have hps := ih fun q hq => h q (by simp [hq])
    simp only [List.flatMap_cons, List.length_append, List.length_cons]
    omega

/-- Every text is what its quoted form stands for. -/
theorem unquote_quote (t : Text) : unquote (quote t) = some t := by
  have hproper := proper_of_mem_pieces (t := t)
  have hlength := length_le_quote hproper
  have hfuel : (quote t).length = (pieces t).length + ((quote t).length - (pieces t).length - 1) + 1 := by
    simp only [quote, List.length_cons, List.length_append, List.length_nil]
    omega
  unfold unquote
  rw [hfuel, quote]
  dsimp only
  rw [if_pos rfl, unquoteBody_quote _ hproper, bytes_pieces]

end CoordSplit.Text
