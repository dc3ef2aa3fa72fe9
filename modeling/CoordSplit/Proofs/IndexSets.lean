import CoordSplit.SlotMap
import Mathlib.Data.Nat.Bitwise
import Mathlib.Tactic

/-!
# Members of index sets

An index set is one number, its mask, cut into words (`IndexSet.mask`): `k` is a member iff bit `k` of the mask is
set. Each operation on words is an operation on masks (`testBit_insert`, `testBit_union`, `testBit_merge`), whatever
numbers of words the sets have, and `IndexSet.toList` lists the members, each once and in ascending order.
Everything that walks over a set, such as the slot map, is described through membership from here on.
-/

set_option autoImplicit false

namespace CoordSplit

namespace IndexSet

/-! ## Bits of a word -/

variable {j i : Nat} {w : UInt64} {s t : IndexSet}

/-- The word of a bit is a power of two. -/
theorem toNat_bit (hj : j < 64) : (bit j).toNat = 2 ^ j := by
  have hpow : 2 ^ j < 2 ^ 64 := Nat.pow_lt_pow_right (by omega) hj
  have hsmall : j < 2 ^ 64 := lt_of_lt_of_le hj (by norm_num)
  rw [bit, UInt64.toNat_shiftLeft, UInt64.toNat_ofNat_of_lt' hsmall, Nat.mod_eq_of_lt hj]
  change 1 <<< j % 2 ^ 64 = 2 ^ j
  rw [Nat.one_shiftLeft, Nat.mod_eq_of_lt hpow]

/-- Words with the same bits are the same. -/
theorem word_ext {v : UInt64} (h : ∀ j < 64, w.toNat.testBit j = v.toNat.testBit j) : w = v := by
  apply UInt64.toNat_inj.mp
  apply Nat.eq_of_testBit_eq
  intro j
  by_cases hj : j < 64
  · exact h j hj
  · have hpow : 2 ^ 64 ≤ 2 ^ j := Nat.pow_le_pow_right (by omega) (by omega)
    rw [Nat.testBit_lt_two_pow (lt_of_lt_of_le w.toNat_lt hpow),
      Nat.testBit_lt_two_pow (lt_of_lt_of_le v.toNat_lt hpow)]

/-- The zero word has no bit. -/
@[simp] theorem testBit_zero (j : Nat) : (0 : UInt64).toNat.testBit j = false := Nat.zero_testBit j

/-- A word is zero iff none of its bits is set. -/
theorem word_eq_zero_iff : w = 0 ↔ ∀ j < 64, w.toNat.testBit j = false := by
  constructor
  · rintro rfl j -
    exact testBit_zero j
  · intro h
    apply word_ext
    intro j hj
    rw [h j hj, testBit_zero]

/-- The bits of a union of words. -/
@[simp] theorem testBit_or (w v : UInt64) (j : Nat) :
    (w ||| v).toNat.testBit j = (w.toNat.testBit j || v.toNat.testBit j) := by
  rw [UInt64.toNat_or, Nat.testBit_or]

/-- The bits of a common part of words. -/
@[simp] theorem testBit_and (w v : UInt64) (j : Nat) :
    (w &&& v).toNat.testBit j = (w.toNat.testBit j && v.toNat.testBit j) := by
  rw [UInt64.toNat_and, Nat.testBit_and]

/-- The one bit of a key. -/
@[simp] theorem testBit_bit (hi : i < 64) (j : Nat) : (bit i).toNat.testBit j = decide (i = j) := by
  rw [toNat_bit hi, Nat.testBit_two_pow]

/-- Taking a bit out of a word leaves the others. -/
theorem testBit_clear (w : UInt64) (hi : i < 64) (hj : j < 64) :
    (w &&& ~~~ bit i).toNat.testBit j = (w.toNat.testBit j && !decide (i = j)) := by
  rw [testBit_and, ← testBit_bit hi j]
  congr 1
  change (~~~ bit i).toBitVec.getLsbD j = !(bit i).toBitVec.getLsbD j
  rw [UInt64.toBitVec_not, BitVec.getLsbD_not, decide_eq_true hj, Bool.true_and]

/-- Asking for a bit of a word asks whether it is set. -/
theorem and_bit_ne_zero_iff (hi : i < 64) : w &&& bit i ≠ 0 ↔ w.toNat.testBit i = true := by
  rw [ne_eq, word_eq_zero_iff]
  constructor
  · intro h
    by_contra hnot
    apply h
    intro j _
    rw [testBit_and, testBit_bit hi]
    by_cases hij : i = j
    · subst hij
      simpa using hnot
    · simp [hij]
  · intro h hzero
    have hbit := hzero i hi
    rw [testBit_and, testBit_bit hi, h] at hbit
    simp at hbit

/-! ## Walking through the bits of a word -/

/-- What is found first in a list without repetition stands before the rest of what is looked for. -/
theorem filter_of_find? {l : List Nat} (hl : l.Nodup) {p : Nat → Bool} (h : l.find? p = some j) :
    l.filter p = j :: l.filter fun i => p i && !decide (j = i) := by
  obtain ⟨hp, as, bs, rfl, has⟩ := List.find?_eq_some_iff_append.mp h
  have hbs : j ∉ bs := (List.nodup_cons.mp (List.nodup_append.mp hl).2.1).1
  have hfront : ∀ q : Nat → Bool, (∀ i ∈ as, q i = false) → as.filter q = [] := by
    intro q hq
    rw [List.filter_eq_nil_iff]
    intro i hi
    simp [hq i hi]
  have has' : ∀ i ∈ as, p i = false := fun i hi => by simpa using has i hi
  rw [List.filter_append, List.filter_append, hfront p has', hfront _ fun i hi => by simp [has' i hi],
    List.filter_cons_of_pos hp, List.filter_cons_of_neg (by simp), List.nil_append, List.nil_append]
  congr 1
  apply List.filter_congr
  intro i hi
  have hne : j ≠ i := fun heq => hbs (heq ▸ hi)
  simp [hne]

/-- How many bits a word has. -/
theorem onesCount_eq (w : UInt64) : onesCount w = ((List.range 64).filter w.toNat.testBit).length :=
  List.countP_eq_length_filter

/-- The least bit of a word that is not zero is found. -/
theorem find?_trailingZeros (h : w ≠ 0) : (List.range 64).find? w.toNat.testBit = some (trailingZeros w) := by
  cases hfind : (List.range 64).find? w.toNat.testBit with
  | some j => rw [trailingZeros, hfind, Option.getD_some]
  | none =>
    refine absurd (word_eq_zero_iff.mpr fun j hj => ?_) h
    simpa using List.find?_eq_none.mp hfind j (List.mem_range.mpr hj)

/-- Once its least bit is taken out, the word has the other bits. -/
theorem filter_trailingZeros (h : w ≠ 0) :
    (List.range 64).filter w.toNat.testBit = trailingZeros w ::
      (List.range 64).filter (w &&& ~~~ bit (trailingZeros w)).toNat.testBit := by
  have hfind := find?_trailingZeros h
  have hlt : trailingZeros w < 64 := List.mem_range.mp (List.mem_of_find?_eq_some hfind)
  rw [filter_of_find? List.nodup_range hfind]
  congr 1
  apply List.filter_congr
  intro i hi
  rw [testBit_clear w hlt (List.mem_range.mp hi)]

/-- The walk that takes out the least bit again and again meets every bit that is set. -/
theorem wordBits_eq {n : Nat} (h : onesCount w ≤ n) : wordBits n w = (List.range 64).filter w.toNat.testBit := by
  induction n generalizing w with
  | zero =>
    rw [onesCount_eq, Nat.le_zero, List.length_eq_zero_iff] at h
    rw [h, wordBits]
  | succ n ih =>
    rw [wordBits]
    split
    · next hw =>
      symm
      rw [List.filter_eq_nil_iff]
      intro j hj
      simp [word_eq_zero_iff.mp hw j (List.mem_range.mp hj)]
    · next hw =>
      have hsplit := filter_trailingZeros hw
      rw [onesCount_eq, hsplit, List.length_cons] at h
      rw [hsplit, ih (by rw [onesCount_eq]; omega)]

/-- Which bits a word has. -/
theorem wordBits_all (w : UInt64) : wordBits 64 w = (List.range 64).filter w.toNat.testBit := by
  apply wordBits_eq
  rw [onesCount_eq]
  exact le_trans (List.length_filter_le _ _) (by simp)

/-! ## The mask -/

/-- The set as one number: its words, one above the other. -/
def mask (s : IndexSet) : Nat := s.words.foldr (fun w m => 2 ^ 64 * m + w.toNat) 0

/-- A bit of the mask is a bit of a word; words that are missing are zero. -/
theorem testBit_mask (s : IndexSet) (k : Nat) :
    s.mask.testBit k = (s.words.getD (k / 64) 0).toNat.testBit (k % 64) := by
  obtain ⟨ws⟩ := s
  unfold mask
  induction ws generalizing k with
  | nil =>
    rw [List.foldr_nil, Nat.zero_testBit, List.getD_nil, testBit_zero]
  | cons w ws ih =>
    rw [List.foldr_cons, Nat.testBit_two_pow_mul_add _ w.toNat_lt]
    split
    · next hk =>
      rw [Nat.div_eq_of_lt hk, Nat.mod_eq_of_lt hk, List.getD_cons_zero]
    · next hk =>
      have hdiv : k / 64 = (k - 64) / 64 + 1 := by omega
      have hmod : k % 64 = (k - 64) % 64 := by omega
      rw [ih, hdiv, hmod, List.getD_cons_succ]

/-- What holds for the bits of all words holds for the bits of the mask. -/
theorem testBit_mask_word (s : IndexSet) (i : Nat) (hj : j < 64) :
    s.mask.testBit (64 * i + j) = (s.words.getD i 0).toNat.testBit j := by
  rw [testBit_mask, Nat.mul_add_div (by omega), Nat.div_eq_of_lt hj, Nat.mul_add_mod, Nat.mod_eq_of_lt hj,
    Nat.add_zero]

/-- The empty set has no bits. -/
@[simp] theorem mask_empty : empty.mask = 0 := rfl

/-- Membership is a bit of the mask. -/
@[simp] theorem contains_natCast (s : IndexSet) (k : Nat) : s.contains (k : Int) = s.mask.testBit k := by
  have hk : k % 64 < 64 := Nat.mod_lt k (by omega)
  change s.contains (.ofNat k) = _
  rw [testBit_mask, contains, List.getD_eq_getElem?_getD]
  cases s.words[k / 64]? with
  | none => exact (testBit_zero _).symm
  | some w => rw [Option.getD_some, Bool.eq_iff_iff, decide_eq_true_eq, and_bit_ne_zero_iff hk]

/-- A member is a bit of the mask. -/
@[simp] theorem mem_iff (s : IndexSet) (k : Nat) : k ∈ s ↔ s.mask.testBit k = true := by
  rw [← contains_natCast]
  exact Iff.rfl

/-- A member of a set, as an integer, is a natural number. -/
theorem contains_iff (s : IndexSet) (k : Int) : s.contains k = true ↔ ∃ j : Nat, k = j ∧ j ∈ s := by
  constructor
  · intro h
    cases k with
    | ofNat j => exact ⟨j, rfl, h⟩
    | negSucc j => simp [contains] at h
  · rintro ⟨j, rfl, h⟩
    exact h

/-- A member lies in one of the words of the set. -/
theorem div_lt_length {k : Nat} (h : s.mask.testBit k = true) : k / 64 < s.words.length := by
  by_contra hnot
  rw [testBit_mask, List.getD_eq_default _ _ (Nat.le_of_not_lt hnot), testBit_zero] at h
  cases h

/-- The members determine the words, but for the zero words at the end. -/
theorem getD_words_eq_iff : (∀ i, s.words.getD i 0 = t.words.getD i 0) ↔ ∀ k, s.mask.testBit k = t.mask.testBit k := by
  constructor
  · intro h k
    rw [testBit_mask, testBit_mask, h]
  · intro h i
    apply word_ext
    intro j hj
    rw [← testBit_mask_word s i hj, ← testBit_mask_word t i hj, h]

/-- The members determine the mask. -/
theorem mask_eq_iff : s.mask = t.mask ↔ ∀ k, k ∈ s ↔ k ∈ t := by
  constructor
  · intro h k
    rw [mem_iff, mem_iff, h]
  · intro h
    apply Nat.eq_of_testBit_eq
    intro k
    rw [Bool.eq_iff_iff, ← mem_iff, ← mem_iff, h]

/-- Comparing words, as many as the longer set has, compares members. -/
theorem equal_iff : s.equal t = true ↔ ∀ k, k ∈ s ↔ k ∈ t := by
  have hwords : s.equal t = true ↔ ∀ i, s.words.getD i 0 = t.words.getD i 0 := by
    simp only [equal, List.all_eq_true, List.mem_range, decide_eq_true_eq]
    constructor
    · intro h i
      by_cases hi : i < max s.words.length t.words.length
      · exact h i hi
      · rw [List.getD_eq_default _ _ (by omega), List.getD_eq_default _ _ (by omega)]
    · exact fun h i _ => h i
  rw [hwords, getD_words_eq_iff]
  exact forall_congr' fun k => by rw [mem_iff, mem_iff, Bool.eq_iff_iff]

/-! ## The members of a set -/

/-- The members are those of the first word, those of the second word, and so on. -/
theorem toList_eq (s : IndexSet) : s.toList = (List.range s.words.length).flatMap fun i =>
    ((List.range 64).filter (s.words.getD i 0).toNat.testBit).map fun j => 64 * i + j := by
  have hzip : s.words.zipIdx = (List.range s.words.length).map fun i => (s.words.getD i 0, i) := by
    apply List.ext_getElem
    · simp
    · intro i hi _
      have hlt : i < s.words.length := by simpa using hi
      rw [List.getElem_zipIdx, List.getElem_map, List.getElem_range, List.getD_eq_getElem _ _ hlt, Nat.zero_add]
  rw [toList, hzip, List.flatMap_map]
  apply List.flatMap_congr
  intro i _
  rw [wordBits_all]

/-- The list of a set has its members. -/
@[simp] theorem mem_toList {k : Nat} : k ∈ s.toList ↔ k ∈ s := by
  rw [toList_eq, List.mem_flatMap, mem_iff]
  simp only [List.mem_range, List.mem_map, List.mem_filter]
  constructor
  · rintro ⟨i, -, j, ⟨hj, hbit⟩, rfl⟩
    rw [testBit_mask_word s i hj]
    exact hbit
  · intro h
    refine ⟨k / 64, div_lt_length h, k % 64, ⟨Nat.mod_lt k (by omega), ?_⟩, Nat.div_add_mod k 64⟩
    rw [← testBit_mask]
    exact h

/-- The list of a set is ascending. -/
theorem toList_sorted (s : IndexSet) : s.toList.Pairwise (· < ·) := by
  rw [toList_eq, List.pairwise_flatMap]
  constructor
  · intro i _
    rw [List.pairwise_map]
    refine List.Pairwise.imp ?_ (List.Pairwise.filter _ List.pairwise_lt_range)
    intro a b hab
    omega
  · refine List.Pairwise.imp ?_ List.pairwise_lt_range
    intro i j hij a ha b hb
    simp only [List.mem_map, List.mem_filter, List.mem_range] at ha hb
    obtain ⟨x, ⟨hx, -⟩, rfl⟩ := ha
    obtain ⟨y, -, rfl⟩ := hb
    omega

/-- No member is listed twice. -/
theorem toList_nodup (s : IndexSet) : s.toList.Nodup :=
  s.toList_sorted.imp fun h => Nat.ne_of_lt h

/-- The bits that are counted are the members that are listed. -/
theorem size_eq_length (s : IndexSet) : s.size = s.toList.length := by
  obtain ⟨ws⟩ := s
  have hcount : ∀ n i, ws.foldl (fun n w => n + onesCount w) n =
      n + ((ws.zipIdx i).flatMap fun p => (wordBits 64 p.1).map fun j => 64 * p.2 + j).length := by
    induction ws with
    | nil => exact fun n i => rfl
    | cons w ws ih =>
      intro n i
      rw [List.foldl_cons, ih _ (i + 1), List.zipIdx_cons, List.flatMap_cons, List.length_append, List.length_map,
        wordBits_all, ← onesCount_eq, Nat.add_assoc]
  rw [size, hcount 0 0, Nat.zero_add, toList]

/-- The size is the number of members. -/
theorem size_eq_card (s : IndexSet) : s.size = s.toList.toFinset.card := by
  rw [size_eq_length, List.toFinset_card_of_nodup s.toList_nodup]

/-- The first word that is not zero holds the least member, as its least bit. -/
theorem first_eq (s : IndexSet) : s.first = (s.toList.head?.map fun (k : Nat) => (k : Int)).getD (-1) := by
  obtain ⟨ws⟩ := s
  have hfirst : ∀ i, (((ws.zipIdx i).find? fun p => p.1 ≠ 0).map
      fun p => ((64 * p.2 + trailingZeros p.1 : Nat) : Int)).getD (-1) =
      ((((ws.zipIdx i).flatMap fun p => (wordBits 64 p.1).map fun j => 64 * p.2 + j).head?).map
        fun (k : Nat) => (k : Int)).getD (-1) := by
    induction ws with
    | nil => exact fun i => rfl
    | cons w ws ih =>
      intro i
      rw [List.zipIdx_cons, List.flatMap_cons]
      by_cases hw : w = 0
      · subst hw
        rw [List.find?_cons_of_neg (by simp), ih]
        rfl
      · rw [List.find?_cons_of_pos (by simpa using hw), wordBits_all, filter_trailingZeros hw]
        rfl
  refine Eq.trans ?_ (hfirst 0)
  rw [first]
  cases ws.zipIdx.find? fun p => p.1 ≠ 0 <;> rfl

/-- Only the empty set has no word with a bit. -/
theorem isEmpty_iff (s : IndexSet) : s.isEmpty = true ↔ s.toList = [] := by
  rw [isEmpty, List.all_eq_true, List.eq_nil_iff_forall_not_mem]
  simp only [decide_eq_true_eq, mem_toList, mem_iff]
  constructor
  · intro h k hk
    have hlt := div_lt_length hk
    rw [testBit_mask, List.getD_eq_getElem _ _ hlt, h _ (List.getElem_mem _), testBit_zero] at hk
    cases hk
  · intro h w hw
    obtain ⟨i, hi, rfl⟩ := List.mem_iff_getElem.mp hw
    rw [word_eq_zero_iff]
    intro j hj
    rw [← List.getD_eq_getElem s.words 0 hi, ← testBit_mask_word s i hj]
    simpa using h (64 * i + j)

/-- Words that only one of two sets has are zero in the other, so they hold no common member. -/
theorem intersects_iff (s t : IndexSet) : s.intersects t = true ↔ ∃ k : Nat, k ∈ s ∧ k ∈ t := by
  simp only [intersects, List.any_eq_true, decide_eq_true_eq, mem_iff]
  constructor
  · rintro ⟨p, hp, hne⟩
    obtain ⟨i, hi, rfl⟩ := List.mem_iff_getElem.mp hp
    rw [List.length_zip, Nat.lt_min] at hi
    rw [List.getElem_zip, ne_eq, word_eq_zero_iff] at hne
    push Not at hne
    obtain ⟨j, hj, hbit⟩ := hne
    rw [testBit_and, ne_eq, Bool.not_eq_false, Bool.and_eq_true] at hbit
    refine ⟨64 * i + j, ?_, ?_⟩
    · rw [testBit_mask_word s i hj, List.getD_eq_getElem _ _ hi.1, hbit.1]
    · rw [testBit_mask_word t i hj, List.getD_eq_getElem _ _ hi.2, hbit.2]
  · rintro ⟨k, hs, ht⟩
    have hks := div_lt_length hs
    have hkt := div_lt_length ht
    rw [testBit_mask, List.getD_eq_getElem _ _ hks] at hs
    rw [testBit_mask, List.getD_eq_getElem _ _ hkt] at ht
    have hlt : k / 64 < (s.words.zip t.words).length := by rw [List.length_zip]; omega
    refine ⟨(s.words.zip t.words)[k / 64], List.getElem_mem hlt, fun hzero => ?_⟩
    have hbit := word_eq_zero_iff.mp hzero (k % 64) (Nat.mod_lt k (by omega))
    rw [List.getElem_zip, testBit_and, hs, ht] at hbit
    simp at hbit

/-! ## Changing sets -/

/-- How many words there are after growing. -/
@[simp] theorem length_grow (ws : List UInt64) (i : Nat) : (grow ws i).length = max ws.length (i + 1) := by
  rw [grow, List.length_append, List.length_replicate]
  omega

/-- Words that are added are zero, as missing words are. -/
@[simp] theorem getD_grow (ws : List UInt64) (i j : Nat) : (grow ws i).getD j 0 = ws.getD j 0 := by
  by_cases hj : j < ws.length
  · rw [grow, List.getD_append _ _ _ _ hj]
  · rw [grow, List.getD_append_right _ _ _ _ (Nat.le_of_not_lt hj), List.getD_eq_default _ _ (Nat.le_of_not_lt hj)]
    simp

/-- Changing a word changes no other word. -/
theorem getD_modify {ws : List UInt64} (hi : i < ws.length) (f : UInt64 → UInt64) (j : Nat) :
    (ws.modify i f).getD j 0 = if i = j then f (ws.getD j 0) else ws.getD j 0 := by
  rw [List.getD_eq_getElem?_getD, List.getD_eq_getElem?_getD, List.getElem?_modify]
  split
  · next h =>
    subst h
    rw [List.getElem?_eq_getElem hi]
    rfl
  · rw [id_map']

/-- The bits after a key was put in. -/
@[simp] theorem testBit_insert (s : IndexSet) (k j : Nat) :
    (s.insert k).mask.testBit j = (s.mask.testBit j || decide (k = j)) := by
  have hlt : k / 64 < (grow s.words (k / 64)).length := by rw [length_grow]; omega
  have hk : k % 64 < 64 := Nat.mod_lt k (by omega)
  rw [testBit_mask, testBit_mask]
  change (((grow s.words (k / 64)).modify (k / 64) (· ||| bit (k % 64))).getD (j / 64) 0).toNat.testBit _ = _
  rw [getD_modify hlt, getD_grow]
  by_cases hword : k / 64 = j / 64
  · rw [if_pos hword, testBit_or, testBit_bit hk]
    congr 1
    rw [decide_eq_decide]
    omega
  · have hne : k ≠ j := fun heq => hword (by rw [heq])
    simp [hword, hne]

/-- Taking a key away leaves the other members. -/
theorem testBit_erase (s : IndexSet) (k j : Nat) :
    (IndexSet.mk (s.words.modify (k / 64) (· &&& ~~~ bit (k % 64)))).mask.testBit j =
      (s.mask.testBit j && !decide (k = j)) := by
  have hk : k % 64 < 64 := Nat.mod_lt k (by omega)
  have hj : j % 64 < 64 := Nat.mod_lt j (by omega)
  rw [testBit_mask, testBit_mask]
  by_cases hlt : k / 64 < s.words.length
  · rw [getD_modify hlt]
    by_cases hword : k / 64 = j / 64
    · rw [if_pos hword, testBit_clear _ hk hj]
      congr 2
      rw [decide_eq_decide]
      omega
    · have hne : k ≠ j := fun heq => hword (by rw [heq])
      simp [hword, hne]
  · -- the word of the key is missing, so the key is no member
    rw [List.modify_eq_self (Nat.le_of_not_lt hlt)]
    by_cases hkj : k = j
    · subst hkj
      rw [List.getD_eq_default _ _ (Nat.le_of_not_lt hlt), testBit_zero, Bool.false_and]
    · simp [hkj]

/-- Words that are put into others end up in them one by one, and nothing else changes. -/
theorem getD_uniteWords {ws rs : List UInt64} (h : i + ws.length ≤ rs.length) (j : Nat) :
    (uniteWords i ws rs).getD j 0 = rs.getD j 0 ||| if i ≤ j then ws.getD (j - i) 0 else 0 := by
  induction ws generalizing i rs with
  | nil => simp [uniteWords]
  | cons w ws ih =>
    rw [List.length_cons] at h
    rw [uniteWords, ih (by rw [List.length_modify]; omega), getD_modify (by omega)]
    rcases lt_trichotomy i j with hlt | rfl | hgt
    · obtain ⟨d, rfl⟩ : ∃ d, j = i + 1 + d := ⟨j - (i + 1), by omega⟩
      have hsub : i + 1 + d - i = d + 1 := by omega
      rw [if_neg (by omega), if_pos (by omega), if_pos (by omega), hsub, List.getD_cons_succ, Nat.add_sub_cancel_left]
    · rw [if_pos rfl, if_neg (by omega), if_pos le_rfl, Nat.sub_self, List.getD_cons_zero, UInt64.or_zero]
    · rw [if_neg (by omega), if_neg (by omega), if_neg (by omega)]

/-- Putting the words of a set into those of a longer one unites their members. -/
theorem testBit_uniteWords (h : s.words.length ≤ t.words.length) (k : Nat) :
    (IndexSet.mk (uniteWords 0 s.words t.words)).mask.testBit k = (t.mask.testBit k || s.mask.testBit k) := by
  rw [testBit_mask, getD_uniteWords (by rw [Nat.zero_add]; exact h), if_pos (Nat.zero_le _), Nat.sub_zero, testBit_or,
    ← testBit_mask, ← testBit_mask]

/-- The bits of a union. -/
@[simp] theorem testBit_union (s t : IndexSet) (k : Nat) :
    (s.union t).mask.testBit k = (s.mask.testBit k || t.mask.testBit k) := by
  rw [union]
  split
  · next h => rw [testBit_uniteWords h.le, Bool.or_comm]
  · next h => rw [testBit_uniteWords (Nat.le_of_not_lt h)]

/-- Merging puts words into others as uniting does, and says whether one of them changed by it. -/
theorem mergeWords_spec (i : Nat) (ws rs : List UInt64) (changed : Bool) :
    (∀ j, (mergeWords i ws (rs, changed)).1.getD j 0 = rs.getD j 0 ||| if i ≤ j then ws.getD (j - i) 0 else 0) ∧
    ((mergeWords i ws (rs, changed)).2 = true ↔
      changed = true ∨ ∃ j, rs.getD (i + j) 0 ||| ws.getD j 0 ≠ rs.getD (i + j) 0) := by
  induction ws generalizing i rs changed with
  | nil => simp [mergeWords]
  | cons w ws ih =>
    -- the head goes into word `i`, and the rest as the induction says, whatever the head did
    have hstep : ∀ (vs : List UInt64) (c : Bool),
        (∀ j, vs.getD j 0 = rs.getD j 0 ||| if i = j then w else 0) →
        (c = true ↔ changed = true ∨ rs.getD i 0 ||| w ≠ rs.getD i 0) →
        (∀ j, (mergeWords (i + 1) ws (vs, c)).1.getD j 0 =
          rs.getD j 0 ||| if i ≤ j then (w :: ws).getD (j - i) 0 else 0) ∧
        ((mergeWords (i + 1) ws (vs, c)).2 = true ↔
          changed = true ∨ ∃ j, rs.getD (i + j) 0 ||| (w :: ws).getD j 0 ≠ rs.getD (i + j) 0) := by
      intro vs c hvs hc
      obtain ⟨hwords, hflag⟩ := ih (i + 1) vs c
      constructor
      · intro j
        rw [hwords, hvs]
        rcases lt_trichotomy i j with hlt | rfl | hgt
        · obtain ⟨d, rfl⟩ : ∃ d, j = i + 1 + d := ⟨j - (i + 1), by omega⟩
          have hsub : i + 1 + d - i = d + 1 := by omega
          rw [if_neg (by omega), if_pos (by omega), if_pos (by omega), hsub, List.getD_cons_succ,
            Nat.add_sub_cancel_left, UInt64.or_zero]
        · rw [if_pos rfl, if_neg (by omega), if_pos le_rfl, Nat.sub_self, List.getD_cons_zero, UInt64.or_zero]
        · rw [if_neg (by omega), if_neg (by omega), if_neg (by omega), UInt64.or_zero]
      · have hrest : ∀ j, vs.getD (i + 1 + j) 0 = rs.getD (i + (j + 1)) 0 := by
          intro j
          rw [hvs, if_neg (by omega), UInt64.or_zero]
          congr 1
          omega
        rw [hflag, hc, or_assoc]
        simp only [hrest]
        constructor
        · rintro (h | h | ⟨j, h⟩)
          · exact .inl h
          · exact .inr ⟨0, h⟩
          · exact .inr ⟨j + 1, h⟩
        · rintro (h | ⟨j, h⟩)
          · exact .inl h
          · cases j with
            | zero => exact .inr (.inl h)
            | succ j => exact .inr (.inr ⟨j, h⟩)
    rw [mergeWords]
    split
    · next hw =>
      subst hw
      apply hstep
      · intro j
        rw [ite_self, UInt64.or_zero]
      · simp
    · next hw =>
      have hlt : i < (grow rs i).length := by rw [length_grow]; omega
      simp only [getD_grow]
      split
      · next hsame =>
        apply hstep
        · intro j
          by_cases hij : i = j
          · subst hij
            rw [getD_grow, if_pos rfl, hsame]
          · rw [getD_grow, if_neg hij, UInt64.or_zero]
        · simp only [hsame, ne_eq, not_true_eq_false, or_false]
      · next hgrows =>
        apply hstep
        · intro j
          rw [List.getD_eq_getElem?_getD, List.getElem?_set]
          by_cases hij : i = j
          · subst hij
            rw [if_pos rfl, if_pos hlt, if_pos rfl]
            rfl
          · rw [if_neg hij, ← List.getD_eq_getElem?_getD, getD_grow, if_neg hij, UInt64.or_zero]
        · simp only [ne_eq, hgrows, not_false_eq_true, or_true]

/-- Merging unites members. -/
@[simp] theorem testBit_merge (s t : IndexSet) (k : Nat) :
    (s.merge t).1.mask.testBit k = (s.mask.testBit k || t.mask.testBit k) := by
  rw [testBit_mask]
  change (List.getD (mergeWords 0 t.words (s.words, false)).1 _ _).toNat.testBit _ = _
  rw [(mergeWords_spec 0 t.words s.words false).1, if_pos (Nat.zero_le _), Nat.sub_zero, testBit_or, ← testBit_mask,
    ← testBit_mask]

/-- Merging reports a change iff it adds a member. -/
theorem merge_grows_iff (s t : IndexSet) :
    (s.merge t).2 = true ↔ ∃ k, t.mask.testBit k = true ∧ s.mask.testBit k = false := by
  change (mergeWords 0 t.words (s.words, false)).2 = true ↔ _
  rw [(mergeWords_spec 0 t.words s.words false).2]
  simp only [Bool.false_eq_true, false_or, Nat.zero_add]
  constructor
  · rintro ⟨i, hne⟩
    by_contra hnone
    push Not at hnone
    refine hne (word_ext fun j hj => ?_)
    rw [testBit_or, ← testBit_mask_word s i hj, ← testBit_mask_word t i hj]
    cases ht : t.mask.testBit (64 * i + j) with
    | false => rw [Bool.or_false]
    | true =>
      have hs : s.mask.testBit (64 * i + j) = true := by simpa using hnone _ ht
      rw [hs]
      rfl
  · rintro ⟨k, ht, hs⟩
    refine ⟨k / 64, fun heq => ?_⟩
    have hbit := congrArg (fun w => w.toNat.testBit (k % 64)) heq
    simp only [testBit_or, ← testBit_mask, ht, hs] at hbit
    simp at hbit

/-- The bits after many keys were put in. -/
theorem testBit_foldl_insert (f : Nat → Nat) (l : List Nat) (s : IndexSet) (j : Nat) :
    (l.foldl (fun s k => s.insert (f k)) s).mask.testBit j = true ↔
      s.mask.testBit j = true ∨ ∃ k ∈ l, f k = j := by
  induction l generalizing s with
  | nil => simp
  | cons k l ih =>
    rw [List.foldl_cons, ih, testBit_insert]
    simp [or_assoc]

end IndexSet

end CoordSplit
