import CoordSplit.Proofs.SharedStorage
import CoordSplit.Proofs.ValueKeys

/-!
# Index sets are finite sets

A program works on sets of small numbers by actions: it makes a set of given keys, copies or unites sets, and adds keys
to a set or takes them away. The words of the sets lie in one storage, where each action changes slices or takes new
ones. Beside the sets stand finite sets of natural numbers, on which each action is the operation of set theory that
it is named for (`SetTable.Action.meaning`).

An index set denotes a finite set if it has the same members (`IndexSet.Denotes`). Its words say more: taking a key
away leaves its word behind, and merging leaves out the words that are zero. Every action with keys that are not
negative keeps what the sets denote (`SetTable.run_denotes`), and from it everything that can be asked of one or of two
sets is read off (`IndexSet.Shows`, `IndexSet.Relates`), whatever words they have.
-/

set_option autoImplicit false

namespace CoordSplit

namespace IndexSet

variable {s t : IndexSet} {A B : Finset Nat}

/-! ## What a set denotes -/

/-- The set has the given members. -/
def Denotes (s : IndexSet) (A : Finset Nat) : Prop := ∀ k, k ∈ s ↔ k ∈ A

/-- The empty set. -/
theorem denotes_empty : empty.Denotes ∅ := by
  intro k
  simp

/-- A key is put in. -/
theorem Denotes.insert (h : s.Denotes A) (k : Nat) : (s.insert k).Denotes (Insert.insert k A) := by
  intro j
  rw [mem_iff, testBit_insert, Bool.or_eq_true, ← mem_iff, h, decide_eq_true_eq, Finset.mem_insert]
  tauto

variable {k : Int}

/-- A key that is not negative can be put in. -/
theorem Denotes.insert? (h : s.Denotes A) (hk : 0 ≤ k) :
    ∃ t, s.insert? k = .ok t ∧ t.Denotes (Insert.insert k.toNat A) := by
  lift k to Nat using hk
  exact ⟨s.insert k, rfl, h.insert k⟩

/-- Keys are added one after the other. -/
theorem Denotes.insertAll (h : s.Denotes A) {keys : List Int} (hkeys : ∀ k ∈ keys, 0 ≤ k) :
    ∃ t, keys.foldlM IndexSet.insert? s = .ok t ∧ t.Denotes (A ∪ (keys.map Int.toNat).toFinset) := by
  induction keys generalizing s A with
  | nil => exact ⟨s, rfl, by simpa using h⟩
  | cons k keys ih =>
    obtain ⟨s', hs', h'⟩ := h.insert? (hkeys k (by simp))
    obtain ⟨t, ht, hdenotes⟩ := ih h' fun j hj => hkeys j (by simp [hj])
    refine ⟨t, ?_, ?_⟩
    · rw [List.foldlM_cons, hs']
      exact ht
    · rw [List.map_cons, List.toFinset_cons, Finset.union_insert, ← Finset.insert_union]
      exact hdenotes

/-- A key that is taken away was the only member that its bit stood for. -/
theorem Denotes.erase? (h : s.Denotes A) (hk : 0 ≤ k) : ∃ t, s.erase? k = .ok t ∧ t.Denotes (A.erase k.toNat) := by
  lift k to Nat using hk
  refine ⟨_, rfl, fun j => ?_⟩
  rw [mem_iff, testBit_erase, Int.toNat_natCast, Finset.mem_erase, ← h, mem_iff, Bool.and_eq_true, Bool.not_eq_true',
    decide_eq_false_iff_not, and_comm, eq_comm]

/-- The union in a set of its own. -/
theorem Denotes.union (hs : s.Denotes A) (ht : t.Denotes B) : (s.union t).Denotes (A ∪ B) := by
  intro k
  rw [mem_iff, testBit_union, Bool.or_eq_true, ← mem_iff, ← mem_iff, hs, ht, Finset.mem_union]

/-- The union in place. -/
theorem Denotes.merge (hs : s.Denotes A) (ht : t.Denotes B) : (s.merge t).1.Denotes (A ∪ B) := by
  intro k
  rw [mem_iff, testBit_merge, Bool.or_eq_true, ← mem_iff, ← mem_iff, hs, ht, Finset.mem_union]

/-! ## What can be asked of a set -/

/-- The part of a list that a walk sees which stops at `k`. -/
def walked (k : Int) (l : List Nat) : List Nat :=
  l.takeWhile (fun (m : Nat) => (m : Int) ≠ k) ++ (l.drop (l.takeWhile fun (m : Nat) => (m : Int) ≠ k).length).take 1

/-- One step of a walk. -/
theorem walked_cons (k : Int) (m : Nat) (l : List Nat) :
    walked k (m :: l) = if (m : Int) = k then [m] else m :: walked k l := by
  by_cases h : (m : Int) = k <;> simp [walked, h]

/-- A walk that does not meet its end goes through all keys. -/
theorem walked_of_not_mem {l : List Nat} (h : ∀ m ∈ l, (m : Int) ≠ k) : walked k l = l := by
  induction l with
  | nil => rfl
  | cons m l ih =>
    rw [walked_cons, if_neg (h m (by simp)), ih fun n hn => h n (by simp [hn])]

/-- A walk to a member goes through the keys up to it. -/
theorem walked_of_mem {l : List Nat} (hl : l.Pairwise (· < ·)) {k : Nat} (hk : k ∈ l) :
    walked k l = l.filter fun n => n ≤ k := by
  induction l with
  | nil => simp at hk
  | cons m l ih =>
    obtain ⟨hm, hl⟩ := List.pairwise_cons.mp hl
    rw [walked_cons]
    by_cases hmk : m = k
    · -- what stands behind the key is greater
      have hrest : l.filter (fun n => n ≤ k) = [] := by
        rw [List.filter_eq_nil_iff]
        intro n hn
        have := hm n hn
        simp only [decide_eq_true_eq]
        omega
      rw [if_pos (by omega), List.filter_cons_of_pos (by simp [hmk]), hrest]
    · have hkl : k ∈ l := (List.mem_cons.mp hk).resolve_left (Ne.symm hmk)
      have hle : m ≤ k := (hm k hkl).le
      rw [if_neg (by omega), List.filter_cons_of_pos (by simp [hle]), ih hl hkl]

/-- A walk that stops at `k` sees the members up to `k`, or all of them if `k` is no member. -/
theorem upTo_eq_filter (s : IndexSet) (k : Int) :
    s.upTo k = s.toList.filter fun (n : Nat) => !s.contains k || decide ((n : Int) ≤ k) := by
  change walked k s.toList = _
  by_cases hk : s.contains k = true
  · obtain ⟨j, rfl, hj⟩ := (s.contains_iff k).mp hk
    rw [walked_of_mem s.toList_sorted (mem_toList.mpr hj)]
    simp [(s.contains_iff j).mpr ⟨j, rfl, hj⟩]
  · rw [walked_of_not_mem, List.filter_eq_self.mpr]
    · intro n _
      simp [hk]
    · rintro m hm rfl
      exact hk ((s.contains_iff m).mpr ⟨m, rfl, mem_toList.mp hm⟩)

/-- All that can be asked of the set is answered as its members say, and each of them lies in an allocated word. -/
structure Shows (s : IndexSet) (A : Finset Nat) : Prop where
  contains : ∀ k : Int, s.contains k = true ↔ ∃ n ∈ A, (n : Int) = k
  listed : ∀ n, n ∈ s.toList ↔ n ∈ A
  ascending : s.toList.Pairwise (· < ·)
  /-- A walk through the members may be stopped at one of them. -/
  walk : ∀ k : Int, s.upTo k = s.toList.filter fun (n : Nat) => !s.contains k || decide ((n : Int) ≤ k)
  size : s.size = A.card
  first : ∀ n : Nat, s.first = n ↔ IsLeast (A : Set Nat) n
  firstNone : s.first = -1 ↔ A = ∅
  isEmpty : s.isEmpty = true ↔ A = ∅
  stored : ∀ n ∈ A, n / 64 < s.words.length

/-- All that can be asked of two sets is answered as their members say; the last answer is whether merging the second
one into the first makes that grow. -/
structure Relates (s t : IndexSet) (A B : Finset Nat) : Prop where
  equal : s.equal t = true ↔ A = B
  key : s.key = t.key ↔ s.equal t = true
  intersects : s.intersects t = true ↔ (A ∩ B).Nonempty
  grows : (s.merge t).2 = true ↔ A ⊂ A ∪ B

/-- The list has the members. -/
theorem Denotes.mem_toList (h : s.Denotes A) (n : Nat) : n ∈ s.toList ↔ n ∈ A := by
  rw [IndexSet.mem_toList, h]

/-- The list of the empty set is empty. -/
theorem Denotes.toList_eq_nil_iff (h : s.Denotes A) : s.toList = [] ↔ A = ∅ := by
  rw [List.eq_nil_iff_forall_not_mem, Finset.eq_empty_iff_forall_notMem]
  simp only [h.mem_toList]

/-- The first of the listed members is the least one. -/
theorem Denotes.first (h : s.Denotes A) (n : Nat) : s.first = n ↔ IsLeast (A : Set Nat) n := by
  have hsorted := s.toList_sorted
  have hmem := h.mem_toList
  rw [first_eq]
  cases hlist : s.toList with
  | nil =>
    have hempty := h.toList_eq_nil_iff.mp hlist
    subst hempty
    simp [IsLeast]
  | cons m rest =>
    rw [hlist] at hsorted hmem
    have hleast : IsLeast (A : Set Nat) m := by
      constructor
      · exact (hmem m).mp (by simp)
      · intro j hj
        rcases List.mem_cons.mp ((hmem j).mpr hj) with rfl | hj
        · exact le_rfl
        · exact ((List.pairwise_cons.mp hsorted).1 j hj).le
    constructor
    · intro heq
      rwa [← Int.ofNat_inj.mp heq]
    · intro hn
      rw [hleast.unique hn]
      rfl

/-- Only the empty set has no least member. -/
theorem Denotes.first_eq_neg_one_iff (h : s.Denotes A) : s.first = -1 ↔ A = ∅ := by
  rw [← h.toList_eq_nil_iff, first_eq]
  cases s.toList with
  | nil => simp
  | cons m rest => simp

/-- Every question is answered as for the finite set. -/
theorem Denotes.shows (h : s.Denotes A) : s.Shows A := by
  constructor
  case contains =>
    intro k
    rw [s.contains_iff]
    constructor
    · rintro ⟨j, rfl, hj⟩
      exact ⟨j, (h j).mp hj, rfl⟩
    · rintro ⟨n, hn, rfl⟩
      exact ⟨n, rfl, (h n).mpr hn⟩
  case listed => exact h.mem_toList
  case ascending => exact s.toList_sorted
  case walk => exact s.upTo_eq_filter
  case size =>
    have hmembers : s.toList.toFinset = A := by
      ext n
      rw [List.mem_toFinset, h.mem_toList]
    rw [size_eq_card, hmembers]
  case first => exact h.first
  case firstNone => exact h.first_eq_neg_one_iff
  case isEmpty => rw [isEmpty_iff, h.toList_eq_nil_iff]
  case stored => exact fun n hn => div_lt_length ((s.mem_iff n).mp ((h n).mpr hn))

/-- Equality is that of the finite sets. -/
theorem Denotes.equal_iff (hs : s.Denotes A) (ht : t.Denotes B) : s.equal t = true ↔ A = B := by
  rw [IndexSet.equal_iff, Finset.ext_iff]
  exact forall_congr' fun k => by rw [hs, ht]

/-- Two sets relate as the finite sets do. -/
theorem Denotes.relates (hs : s.Denotes A) (ht : t.Denotes B) : s.Relates t A B := by
  constructor
  case equal => exact hs.equal_iff ht
  case key => rw [key_eq_iff, IndexSet.equal_iff]
  case intersects =>
    rw [intersects_iff, Finset.Nonempty]
    exact exists_congr fun k => by rw [hs, ht, Finset.mem_inter]
  case grows =>
    rw [merge_grows_iff, Finset.ssubset_iff_subset_ne, and_iff_right Finset.subset_union_left, ne_eq, eq_comm,
      Finset.union_eq_left, Finset.not_subset]
    refine exists_congr fun k => ?_
    rw [← ht, ← hs, mem_iff, mem_iff, Bool.not_eq_true]

end IndexSet

/-! ## Sessions -/

namespace SetTable

open IndexSet

namespace Action

/-- The keys that the action names. -/
def keys : Action → List Int
  | .of _ keys => keys
  | .insert _ k | .erase _ k => [k]
  | .union .. | .copy .. | .merge .. => []

/-- No key is negative. -/
def Legal (act : Action) : Prop := ∀ k ∈ act.keys, 0 ≤ k

instance (act : Action) : Decidable act.Legal := inferInstanceAs (Decidable (∀ k ∈ act.keys, 0 ≤ k))

/-- The finite set that the written set is to denote. -/
def meaning (M : Nat → Finset Nat) : Action → Finset Nat
  | .of _ keys => (keys.map Int.toNat).toFinset
  | .insert r k => Insert.insert k.toNat (M r)
  | .erase r k => (M r).erase k.toNat
  | .union _ a b => M a ∪ M b
  | .copy _ a => M a
  | .merge r a => M r ∪ M a

/-- What an action writes denotes what it means. -/
theorem result_denotes {act : Action} {σ : Nat → IndexSet} {M : Nat → Finset Nat} (h : ∀ r, (σ r).Denotes (M r))
    (legal : act.Legal) : ∃ s, act.result σ = .ok s ∧ s.Denotes (act.meaning M) := by
  cases act with
  | of r keys =>
    have hkeys : ∀ k ∈ keys, 0 ≤ k := legal
    obtain ⟨s, hs, hdenotes⟩ := denotes_empty.insertAll hkeys
    rw [Finset.empty_union] at hdenotes
    exact ⟨s, hs, hdenotes⟩
  | insert r k => exact (h r).insert? (legal k (by simp [keys]))
  | erase r k => exact (h r).erase? (legal k (by simp [keys]))
  | union r a b => exact ⟨_, rfl, (h a).union (h b)⟩
  | copy r a => exact ⟨_, rfl, h a⟩
  | merge r a => exact ⟨_, rfl, (h r).merge (h a)⟩

end Action

/-- The sets are out of each other's way, and denote the given finite sets. -/
structure Holds (t : SetTable) (M : Nat → Finset Nat) : Prop where
  separate : t.Separate
  denotes : ∀ r, (t.get r).Denotes (M r)

variable {t : SetTable} {M : Nat → Finset Nat}

/-- All sets are empty at first. -/
theorem holds_empty : empty.Holds fun _ => ∅ := ⟨separate_empty, fun _ => denotes_empty⟩

/-- A legal action is carried out, and then the sets denote what they did but for the one that is written. -/
theorem run_denotes {act : Action} (h : t.Holds M) (legal : act.Legal) :
    ∃ u, t.run act = .ok u ∧ u.Holds (Function.update M act.target (act.meaning M)) := by
  obtain ⟨s, hs, hdenotes⟩ := Action.result_denotes h.denotes legal
  obtain ⟨u, hu, hwrites⟩ := (h.separate.run_spec act).2 s hs
  refine ⟨u, hu, hwrites.separate, fun r => ?_⟩
  by_cases hr : r = act.target
  · subst hr
    rw [Function.update_self, hwrites.written]
    exact hdenotes
  · rw [Function.update_of_ne hr, hwrites.kept r hr]
    exact h.denotes r

/-- An action leaves all sets alone but the one that is written. -/
theorem Separate.get_of_run {act : Action} {u : SetTable} (h : t.Separate) (hrun : t.run act = .ok u) {r : Nat}
    (hr : r ≠ act.target) : u.get r = t.get r := by
  cases hs : act.result t.get with
  | error f =>
    rw [(h.run_spec act).1 f hs] at hrun
    cases hrun
  | ok s =>
    obtain ⟨v, hv, hwrites⟩ := (h.run_spec act).2 s hs
    obtain rfl := Except.ok.inj (hv.symm.trans hrun)
    exact hwrites.kept r hr

/-- Actions are carried out one after the other. -/
def session (acts : List Action) (t : SetTable) : Except Fault SetTable := acts.foldlM run t

/-- The finite sets that the sets are to denote after a session. -/
def denoted (acts : List Action) (M : Nat → Finset Nat) : Nat → Finset Nat :=
  acts.foldl (fun M act => Function.update M act.target (act.meaning M)) M

/-- Every action of a session keeps what the sets denote. -/
theorem session_denotes {acts : List Action} (h : t.Holds M) (legal : ∀ act ∈ acts, act.Legal) :
    ∃ u, session acts t = .ok u ∧ u.Holds (denoted acts M) := by
  induction acts generalizing t M with
  | nil => exact ⟨t, rfl, h⟩
  | cons act acts ih =>
    obtain ⟨t', ht', h'⟩ := run_denotes h (legal act (by simp))
    obtain ⟨u, hu, hdenotes⟩ := ih h' fun a ha => legal a (by simp [ha])
    refine ⟨u, ?_, hdenotes⟩
    rw [session, List.foldlM_cons, ht']
    exact hu

/-- Whatever is done to sets that were empty at first, with no negative key: no action faults, and then each set shows
the members of the finite set that the actions mean, each two sets relate as these do, and each further action leaves
the sets alone that it does not write. -/
theorem session_shows {acts : List Action} (legal : ∀ act ∈ acts, act.Legal) :
    ∃ t, session acts .empty = .ok t ∧
      (∀ r, (t.get r).Shows (denoted acts (fun _ => ∅) r)) ∧
      (∀ r q, (t.get r).Relates (t.get q) (denoted acts (fun _ => ∅) r) (denoted acts (fun _ => ∅) q)) ∧
      ∀ (act : Action) (u : SetTable), t.run act = .ok u → ∀ r, r ≠ act.target → u.get r = t.get r := by
  obtain ⟨t, ht, h⟩ := session_denotes holds_empty legal
  exact ⟨t, ht, fun r => (h.denotes r).shows, fun r q => (h.denotes r).relates (h.denotes q),
    fun _ _ hrun _ hr => h.separate.get_of_run hrun hr⟩

/-- The second set gets a key three words behind the others and loses it again, and a copy of it grows. -/
def strandedWords : List Action :=
  [.of 0 [1, 2, 63], .of 1 [63, 200, 2, 1], .erase 1 200, .copy 2 1, .insert 2 64, .merge 3 2, .union 4 0 3]

/-- The second set keeps four words where the first has one, and yet they are equal and share their key. Its copy keeps
them too, but the set that the copy is merged into has two. -/
theorem session_shows_strandedWords : (∀ act ∈ strandedWords, act.Legal) ∧
    ∃ t, session strandedWords .empty = .ok t ∧ (t.get 0).words.length = 1 ∧ (t.get 1).words.length = 4 ∧
      (t.get 2).words.length = 4 ∧ (t.get 3).words.length = 2 ∧
      (t.get 0).equal (t.get 1) = true ∧ (t.get 0).key = (t.get 1).key ∧ (t.get 1).contains 64 = false ∧
      (t.get 4).size = 4 ∧ (t.get 4).first = 1 ∧ ((t.get 1).merge (t.get 4)).2 = true := by
  have hlegal : ∀ act ∈ strandedWords, act.Legal := by decide
  have hwords : ((session strandedWords .empty).toOption.map fun t =>
      (List.range 4).map fun r => (t.get r).words.length) = some [1, 4, 4, 2] := by decide +kernel
  obtain ⟨t, ht, hshows, hrelates, -⟩ := session_shows hlegal
  rw [ht] at hwords
  obtain ⟨hzero, hone, htwo, hthree⟩ : (t.get 0).words.length = 1 ∧ (t.get 1).words.length = 4 ∧
      (t.get 2).words.length = 4 ∧ (t.get 3).words.length = 2 := by
    simpa [Except.toOption, List.range_succ] using hwords
  have hequal : (t.get 0).equal (t.get 1) = true := (hrelates 0 1).equal.mpr (by decide)
  refine ⟨hlegal, t, ht, hzero, hone, htwo, hthree, hequal, (hrelates 0 1).key.mpr hequal, ?_, ?_, ?_, ?_⟩
  · rw [← Bool.not_eq_true, (hshows 1).contains]
    decide
  · rw [(hshows 4).size]
    decide
  · apply ((hshows 4).first 1).mpr
    constructor
    · decide
    · intro n hn
      have hall : ∀ n ∈ denoted strandedWords (fun _ => ∅) 4, 1 ≤ n := by decide
      exact hall n hn
  · apply (hrelates 1 4).grows.mpr
    decide

end SetTable

end CoordSplit
