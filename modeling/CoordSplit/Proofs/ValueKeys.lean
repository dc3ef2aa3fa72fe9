import CoordSplit.Flow.Value
import CoordSplit.Proofs.Descriptors
import CoordSplit.Proofs.IndexSets

/-!
# Keys tell values apart

A value is indexed under a text: its descriptor and the words of its two sets, with separators between them. The
descriptor may hold the separator itself, the sets have any number of words, and yet two values share a key iff the
same is known about them (`Value.key_eq_iff`): the words are written in hexadecimal digits, so the last two slashes
of a key are those that separate its parts.
-/

set_option autoImplicit false

namespace CoordSplit

namespace Text

/-! ## Numerals -/

theorem digit_inj {d e : Nat} (hd : d < 16) (he : e < 16) (h : digit d = digit e) : d = e := by
  have hall : ∀ d < 16, ∀ e < 16, digit d = digit e → d = e := by decide
  exact hall d hd e he h

/-- No digit is a dot or a slash. -/
theorem digit_ne {d : Nat} (hd : d < 16) : digit d ≠ 46 ∧ digit d ≠ 47 := by
  have hall : ∀ d < 16, digit d ≠ 46 ∧ digit d ≠ 47 := by decide
  exact hall d hd

theorem hex_eq (n : Nat) : hex n = if n < 16 then [digit n] else hex (n / 16) ++ [digit (n % 16)] := by
  rw [hex, ofNatBase]
  simp [hex]

theorem hex_ne_nil (n : Nat) : hex n ≠ [] := by
  rw [hex_eq]
  split <;> simp

/-- Digits tell numbers apart. -/
theorem hex_inj {m n : Nat} (h : hex m = hex n) : m = n := by
  induction m using Nat.strong_induction_on generalizing n with
  | h m ih =>
    have hlength : ∀ k c, (hex k ++ [c]).length ≠ 1 := by
      intro k c
      have := List.length_pos_iff.mpr (hex_ne_nil k)
      rw [List.length_append, List.length_singleton]
      omega
    rw [hex_eq m, hex_eq n] at h
    split at h
    · next hm =>
      split at h
      · next hn => exact digit_inj hm hn (List.cons.inj h).1
      · exact absurd (congrArg List.length h).symm (hlength _ _)
    · next hm =>
      split at h
      · exact absurd (congrArg List.length h) (hlength _ _)
      · obtain ⟨hdiv, hmod⟩ := List.append_inj' h rfl
        have hquotient := ih (m / 16) (Nat.div_lt_self (by omega) (by omega)) hdiv
        have hremainder := digit_inj (Nat.mod_lt _ (by omega)) (Nat.mod_lt _ (by omega)) (List.cons.inj hmod).1
        omega

theorem mem_hex {n : Nat} {b : UInt8} (h : b ∈ hex n) : ∃ d < 16, b = digit d := by
  induction n using Nat.strong_induction_on with
  | h n ih =>
    rw [hex_eq] at h
    split at h
    · next hn => exact ⟨n, hn, List.mem_singleton.mp h⟩
    · next hn =>
      rcases List.mem_append.mp h with h | h
      · exact ih (n / 16) (Nat.div_lt_self (by omega) (by omega)) h
      · exact ⟨n % 16, Nat.mod_lt _ (by omega), List.mem_singleton.mp h⟩

/-! ## Separators -/

variable {sep : UInt8}

/-- The first separator tells two texts apart. -/
theorem append_sep_inj {a a' b b' : Text} (ha : sep ∉ a) (ha' : sep ∉ a')
    (h : a ++ sep :: b = a' ++ sep :: b') : a = a' ∧ b = b' := by
  have hcut : cut sep (a ++ sep :: b) = some (a, b) := cut_eq_some_iff.mpr ⟨ha, rfl⟩
  rw [h, cut_eq_some_iff.mpr ⟨ha', rfl⟩] at hcut
  obtain ⟨h₁, h₂⟩ := Prod.mk.inj (Option.some.inj hcut)
  exact ⟨h₁.symm, h₂.symm⟩

/-- So does the last one. -/
theorem append_last_sep_inj {a a' b b' : Text} (hb : sep ∉ b) (hb' : sep ∉ b')
    (h : a ++ sep :: b = a' ++ sep :: b') : a = a' ∧ b = b' := by
  have hreverse := congrArg List.reverse h
  simp only [List.reverse_append, List.reverse_cons, List.append_assoc, List.singleton_append] at hreverse
  obtain ⟨h₁, h₂⟩ := append_sep_inj (by simpa using hb) (by simpa using hb') hreverse
  exact ⟨List.reverse_injective h₂, List.reverse_injective h₁⟩

theorem join_cons_cons (sep : UInt8) (t u : Text) (rest : List Text) :
    join [sep] (t :: u :: rest) = t ++ sep :: join [sep] (u :: rest) := by
  rw [join, List.append_assoc, List.singleton_append]

/-- Parts that are not empty and do not hold the separator can be told apart. -/
theorem join_inj {l l' : List Text} (hl : ∀ t ∈ l, t ≠ [] ∧ sep ∉ t) (hl' : ∀ t ∈ l', t ≠ [] ∧ sep ∉ t)
    (h : join [sep] l = join [sep] l') : l = l' := by
  induction l generalizing l' with
  | nil =>
    match l' with
    | [] => rfl
    | [t] => exact absurd h.symm (hl' t (by simp)).1
    | t :: u :: rest =>
      rw [join_cons_cons] at h
      simp [join] at h
  | cons t l ih =>
    match l, l' with
    | [], [] => exact absurd h (hl t (by simp)).1
    | [], [t'] => rw [show t = t' from h]
    | [], t' :: u' :: rest' =>
      rw [join_cons_cons] at h
      exact absurd (show t = _ from h) fun heq => (hl t (by simp)).2 (heq ▸ by simp)
    | u :: rest, [] =>
      rw [join_cons_cons] at h
      simp [join] at h
    | u :: rest, [t'] =>
      rw [join_cons_cons] at h
      exact absurd (show t' = _ from h.symm) fun heq => (hl' t' (by simp)).2 (heq ▸ by simp)
    | u :: rest, t' :: u' :: rest' =>
      rw [join_cons_cons, join_cons_cons] at h
      obtain ⟨rfl, hrest⟩ := append_sep_inj (hl t (by simp)).2 (hl' t' (by simp)).2 h
      rw [ih (fun s hs => hl s (by simp [List.mem_cons.mp hs])) (fun s hs => hl' s (by simp [List.mem_cons.mp hs])) hrest]

/-- The bytes of words that are joined. -/
theorem mem_join {b : UInt8} {l : List Text} (h : b ∈ join [sep] l) : b = sep ∨ ∃ t ∈ l, b ∈ t := by
  induction l with
  | nil => cases h
  | cons t l ih =>
    match l with
    | [] => exact .inr ⟨t, by simp, h⟩
    | u :: rest =>
      rw [join_cons_cons] at h
      rcases List.mem_append.mp h with h | h
      · exact .inr ⟨t, by simp, h⟩
      · rcases List.mem_cons.mp h with h | h
        · exact .inl h
        · rcases ih h with h | ⟨s, hs, hb⟩
          · exact .inl h
          · exact .inr ⟨s, List.mem_cons_of_mem t hs, hb⟩

end Text

/-! ## Sets -/

namespace IndexSet

/-- A word at the end is kept unless it is zero. -/
theorem trim_concat (ws : List UInt64) (w : UInt64) : trim (ws ++ [w]) = if w = 0 then trim ws else ws ++ [w] := by
  rw [trim, List.reverse_append, List.reverse_singleton, List.singleton_append, List.dropWhile_cons]
  by_cases hw : w = 0
  · rw [if_pos (by simpa using hw), if_pos hw, trim]
  · rw [if_neg (by simpa using hw), if_neg hw, List.reverse_cons, List.reverse_reverse]

/-- Only zero words are left out. -/
theorem getD_trim (ws : List UInt64) (i : Nat) : (trim ws).getD i 0 = ws.getD i 0 := by
  induction ws using List.reverseRecOn with
  | nil => rfl
  | append_singleton ws w ih =>
    rw [trim_concat]
    split
    · next hw =>
      subst hw
      rw [ih]
      by_cases hi : i < ws.length
      · rw [List.getD_append _ _ _ _ hi]
      · rw [List.getD_append_right _ _ _ _ (Nat.le_of_not_lt hi), List.getD_eq_default _ _ (Nat.le_of_not_lt hi)]
        cases i - ws.length <;> rfl
    · rfl

/-- All words that are zero at the end are left out. -/
theorem trim_getLast (ws : List UInt64) (h : trim ws ≠ []) : (trim ws).getLast h ≠ 0 := by
  induction ws using List.reverseRecOn with
  | nil => exact absurd rfl h
  | append_singleton ws w ih =>
    by_cases hw : w = 0
    · have htrim : trim (ws ++ [w]) = trim ws := by rw [trim_concat, if_pos hw]
      simpa only [htrim] using ih (htrim ▸ h)
    · have htrim : trim (ws ++ [w]) = ws ++ [w] := by rw [trim_concat, if_neg hw]
      simpa only [htrim, List.getLast_append_singleton] using hw

/-- Words whose last one is not zero are no more than the words of another list that agrees with them. -/
theorem length_le_of_getD {vs ws : List UInt64} (hlast : ∀ h : ws ≠ [], ws.getLast h ≠ 0)
    (h : ∀ i, ws.getD i 0 = vs.getD i 0) : ws.length ≤ vs.length := by
  by_contra hlt
  have hne : ws ≠ [] := by
    rintro rfl
    simp at hlt
  apply hlast hne
  rw [List.getLast_eq_getElem hne, ← List.getD_eq_getElem ws 0, h, List.getD_eq_default _ _ (by omega)]

/-- Trimmed words are determined by the words as they are read, with zero for those that are missing. -/
theorem trim_eq_trim_iff {vs ws : List UInt64} : trim vs = trim ws ↔ ∀ i, vs.getD i 0 = ws.getD i 0 := by
  constructor
  · intro h i
    rw [← getD_trim vs, ← getD_trim ws, h]
  · intro h
    have hread : ∀ i, (trim vs).getD i 0 = (trim ws).getD i 0 := by simpa only [getD_trim] using h
    have hlength : (trim vs).length = (trim ws).length :=
      le_antisymm (length_le_of_getD (trim_getLast vs) hread)
        (length_le_of_getD (trim_getLast ws) fun i => (hread i).symm)
    apply List.ext_getElem hlength
    intro i hi hi'
    rw [← List.getD_eq_getElem _ 0 hi, hread, List.getD_eq_getElem _ 0 hi']

/-- Two sets share a key iff they have the same members. -/
theorem key_eq_iff {s t : IndexSet} : s.key = t.key ↔ ∀ k, k ∈ s ↔ k ∈ t := by
  have hparts : ∀ (u : IndexSet), ∀ t ∈ (trim u.words).map fun w => Text.hex w.toNat, t ≠ [] ∧ 46 ∉ t := by
    intro u t ht
    obtain ⟨w, -, rfl⟩ := List.mem_map.mp ht
    refine ⟨Text.hex_ne_nil _, fun hdot => ?_⟩
    obtain ⟨d, hd, heq⟩ := Text.mem_hex hdot
    exact (Text.digit_ne hd).1 heq.symm
  have hinj : Function.Injective fun w : UInt64 => Text.hex w.toNat :=
    fun _ _ h => UInt64.toNat_inj.mp (Text.hex_inj h)
  rw [← mask_eq_iff]
  constructor
  · intro h
    have htrim := List.map_injective_iff.mpr hinj (Text.join_inj (hparts s) (hparts t) h)
    exact Nat.eq_of_testBit_eq (getD_words_eq_iff.mp (trim_eq_trim_iff.mp htrim))
  · intro h
    have hwords : ∀ i, s.words.getD i 0 = t.words.getD i 0 := getD_words_eq_iff.mpr fun k => by rw [h]
    rw [key, key, trim_eq_trim_iff.mpr hwords]

theorem slash_not_mem_key (s : IndexSet) : 47 ∉ s.key := by
  intro h
  rcases Text.mem_join h with h | ⟨t, ht, h⟩
  · cases h
  · obtain ⟨n, -, rfl⟩ := List.mem_map.mp ht
    obtain ⟨d, hd, heq⟩ := Text.mem_hex h
    exact (Text.digit_ne hd).2 heq.symm

end IndexSet

/-! ## Values -/

namespace Value

/-- The values have the same descriptor, producers and slots. -/
structure Same (v w : Value) : Prop where
  desc : v.type.desc = w.type.desc
  prod : ∀ k, k ∈ v.prod ↔ k ∈ w.prod
  slots : ∀ k, k ∈ v.slots ↔ k ∈ w.slots

theorem key_eq (v : Value) : v.key = v.type.desc ++ 47 :: (v.prod.key ++ 47 :: v.slots.key) := by
  rw [key, show (("/" : String) : Text) = [47] by decide, Text.join_cons_cons, Text.join_cons_cons]
  rfl

/-- Two values share a key iff the same is known about them. -/
theorem key_eq_iff {v w : Value} : v.key = w.key ↔ v.Same w := by
  rw [key_eq, key_eq]
  constructor
  · intro h
    rw [← List.cons_append, ← List.append_assoc, ← List.cons_append, ← List.append_assoc] at h
    obtain ⟨hfront, hslots⟩ := Text.append_last_sep_inj v.slots.slash_not_mem_key w.slots.slash_not_mem_key h
    obtain ⟨hdesc, hprod⟩ := Text.append_last_sep_inj v.prod.slash_not_mem_key w.prod.slash_not_mem_key hfront
    exact ⟨hdesc, IndexSet.key_eq_iff.mp hprod, IndexSet.key_eq_iff.mp hslots⟩
  · rintro ⟨hdesc, hprod, hslots⟩
    rw [hdesc, IndexSet.key_eq_iff.mpr hprod, IndexSet.key_eq_iff.mpr hslots]

/-- Comparing values compares what is known about them. -/
theorem equal_eq_true_iff {v w : Value} : v.equal w = true ↔ v.Same w := by
  rw [equal, Bool.and_eq_true, Bool.and_eq_true, decide_eq_true_eq, IndexSet.equal_iff, IndexSet.equal_iff]
  constructor
  · rintro ⟨⟨htype, hprod⟩, hslots⟩
    exact ⟨congrArg _ htype, hprod, hslots⟩
  · rintro ⟨hdesc, hprod, hslots⟩
    exact ⟨⟨ValueType.desc_inj hdesc, hprod⟩, hslots⟩

end Value

end CoordSplit
