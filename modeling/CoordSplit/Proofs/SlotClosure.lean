import CoordSplit.Proofs.SlotOrigins

/-!
# Closed sets of slots

What is compared with a packed coordinate, copied from one or copied to one is packed as well: a packed slot pulls
others into the set (`Expansion.Pulls`). A set is closed if it has everything that its members pull
(`Expansion.Closed`).

A round goes through the code once and adds to the set as it goes, so what one instruction adds counts for those
behind it. Whatever the order, a round adds only what every closed set has (`growRound_subset_closed`) and at least
what the set pulled when the round began (`mem_growRound_of_pulls`). So a round that adds nothing has found a closed
set, and since only slots that the code accesses are ever pulled, there is such a round (`settles_close`). Closing a
set gives the least closed set above it (`close_least`).
-/

set_option autoImplicit false

namespace CoordSplit

open Analysis IndexSet

/-- The operand that is compared with `v`: what is on top of the stack or, if that is equal to `v`, what is below. -/
def Frame.opposite? (f : Frame) (v : Value) : Option Value :=
  match f.stack with
  | [] => none
  | w :: rest => if w.equal v then rest.head? else some w

theorem Frame.mem_of_opposite? {f : Frame} {v w : Value} (h : f.opposite? v = some w) : w ∈ f.stack := by
  rw [opposite?] at h
  split at h
  · cases h
  · next u rest hstack =>
    rw [hstack]
    split at h
    · exact List.mem_cons_of_mem _ (List.mem_of_mem_head? h)
    · rw [Option.some.inj h]
      exact List.mem_cons_self

theorem IndexSet.contains_mono {s t : IndexSet} (h : s ⊆ t) {j : Int} (hj : s.contains j = true) :
    t.contains j = true := by
  obtain ⟨k, rfl, hk⟩ := (s.contains_iff j).mp hj
  exact h k hk

theorem IndexSet.equal_of_subset {s t : IndexSet} (h : s ⊆ t) (h' : t ⊆ s) : s.equal t = true :=
  equal_iff.mpr fun k => ⟨h k, h' k⟩

/-- Some instruction of the code loads or stores the slot. -/
def Code.Accesses (c : Code) (k : Nat) : Prop := ∃ id op, (id, .var op k) ∈ c.listing

namespace Expansion

/-- A use of the packed value `v` makes the slot packed: `v` is compared with a value from the slot, or stored in
the slot. -/
inductive Joins (a : Analysis) (v : Value) (user : InsnId) (k : Nat) : Prop
  | compared {f : Frame} {w : Value} (hinsn : a.insn? user = some (.plain .lcmp)) (hf : a.frame? user = some f)
      (hw : f.opposite? v = some w) (hk : k ∈ w.slots)
  | copied (hinsn : a.insn? user = some (.var .lstore k))

/-- An instruction makes slot `k` packed if slot `j` is: it loads a value from `j` of which a use makes `k` packed, or
it stores a value from `k` in `j`. -/
inductive Pulls (a : Analysis) : (InsnId × Insn) × Frame → Int → Nat → Prop
  | loaded {id : InsnId} {j : Int} {f : Frame} {v : Value} {user k : Nat} (hv : a.value? id = some v)
      (huser : user ∈ a.consumers v) (hjoins : Joins a v user k) : Pulls a ((id, .var .lload j), f) j k
  | stored {id : InsnId} {j : Int} {f : Frame} {v : Value} {k : Nat} (hv : f.stack.head? = some v)
      (hk : k ∈ v.slots) : Pulls a ((id, .var .lstore j), f) j k

/-- The set has every slot that one of its members pulls at a reachable instruction. -/
def Closed (a : Analysis) (s : IndexSet) : Prop :=
  ∀ line ∈ a.reachable, ∀ j k, Pulls a line j k → s.contains j = true → k ∈ s

/-! ## What an instruction adds -/

section

variable {a : Analysis} {s t : IndexSet} {v : Value} {k : Nat}

/-- A use of a value adds the slots that it makes packed. -/
theorem mem_growUse {user : InsnId} (hstore : ∀ slot, a.insn? user = some (.var .lstore slot) → 0 ≤ slot) :
    k ∈ growUse a v user s ↔ k ∈ s ∨ Joins a v user k := by
  unfold growUse
  split
  · next f hinsn hf =>
    have hjoins : Joins a v user k ↔ ∃ w, f.opposite? v = some w ∧ k ∈ w.slots := by
      constructor
      · rintro (⟨-, hf', hw, hk⟩ | ⟨hinsn'⟩)
        · obtain rfl := Option.some.inj (hf.symm.trans hf')
          exact ⟨_, hw, hk⟩
        · cases hinsn.symm.trans hinsn'
      · rintro ⟨w, hw, hk⟩
        exact .compared hinsn hf hw hk
    rw [hjoins, Frame.opposite?]
    cases f.stack with
    | nil => simp
    | cons w rest =>
      simp only
      split
      · cases rest <;> simp
      · simp
  · next slot hinsn =>
    obtain ⟨j, rfl⟩ := Int.eq_ofNat_of_zero_le (hstore slot hinsn)
    have hjoins : Joins a v user k ↔ k = j := by
      constructor
      · rintro (⟨hinsn', -, -, -⟩ | ⟨hinsn'⟩)
        · cases hinsn.symm.trans hinsn'
        · have := Option.some.inj (hinsn.symm.trans hinsn')
          simp only [Insn.var.injEq, true_and] at this
          exact (Int.natCast_inj.mp this).symm
      · rintro rfl
        exact .copied hinsn
    rw [hjoins]
    split
    · next hj =>
      refine ⟨.inl, fun h => h.elim id ?_⟩
      rintro rfl
      exact hj
    · rw [mem_iff, Int.toNat_natCast, testBit_insert, Bool.or_eq_true, decide_eq_true_eq,
        ← mem_iff, @eq_comm _ j]
  · next hlstore hlcmp =>
    refine ⟨.inl, fun h => h.elim id ?_⟩
    rintro (⟨hinsn, hf, -, -⟩ | ⟨hinsn⟩)
    · exact (hlcmp _ hinsn hf).elim
    · exact (hlstore _ hinsn).elim

theorem mem_foldl_growUse {users : List Nat}
    (hstore : ∀ user ∈ users, ∀ slot, a.insn? (user : Nat) = some (.var .lstore slot) → 0 ≤ slot) :
    k ∈ users.foldl (fun s (user : Nat) => growUse a v user s) s ↔ k ∈ s ∨ ∃ user ∈ users, Joins a v user k := by
  induction users generalizing s with
  | nil => simp
  | cons user users ih =>
    rw [List.foldl_cons, ih fun u hu => hstore u (List.mem_cons_of_mem _ hu),
      mem_growUse (hstore user List.mem_cons_self)]
    simp only [List.mem_cons, exists_eq_or_imp, or_assoc]

/-- An instruction adds what it pulls into the set. -/
theorem mem_growInsn (hstore : ∀ v slot, slot ∈ a.storedTo v → 0 ≤ slot) (line : (InsnId × Insn) × Frame) :
    k ∈ growInsn a s line ↔ k ∈ s ∨ ∃ j, s.contains j = true ∧ Pulls a line j k := by
  unfold growInsn
  split
  · next id slot f =>
    have hpulls : (∃ j, s.contains j = true ∧ Pulls a ((id, .var .lload slot), f) j k) ↔
        s.contains slot = true ∧ ∃ v, a.value? id = some v ∧ ∃ user ∈ (a.consumers v).toList, Joins a v user k := by
      constructor
      · rintro ⟨j, hj, ⟨hv, huser, hjoins⟩ | _⟩
        exact ⟨hj, _, hv, _, mem_toList.mpr huser, hjoins⟩
      · rintro ⟨hslot, v, hv, user, huser, hjoins⟩
        exact ⟨slot, hslot, .loaded hv (mem_toList.mp huser) hjoins⟩
    rw [hpulls]
    split
    · next hslot =>
      split
      · next v hv =>
        rw [mem_foldl_growUse]
        · simp [hslot, hv]
        · intro user huser j hj
          refine hstore v j (List.mem_filterMap.mpr ⟨user, huser, ?_⟩)
          simp only [hj]
      · next hv => simp [hv]
    · next hslot => simp [hslot]
  · next id slot f =>
    have hpulls : (∃ j, s.contains j = true ∧ Pulls a ((id, .var .lstore slot), f) j k) ↔
        s.contains slot = true ∧ ∃ v, f.stack.head? = some v ∧ k ∈ v.slots := by
      constructor
      · rintro ⟨j, hj, _ | ⟨hv, hk⟩⟩
        exact ⟨hj, _, hv, hk⟩
      · rintro ⟨hslot, v, hv, hk⟩
        exact ⟨slot, hslot, .stored hv hk⟩
    rw [hpulls]
    split
    · next hslot =>
      cases hv : f.stack.head? with
      | none => simp
      | some v => simp [hslot]
    · next hslot => simp [hslot]
  · next hload hstore' =>
    refine ⟨.inl, fun h => h.elim id ?_⟩
    rintro ⟨j, -, hpulls⟩
    cases hpulls with
    | loaded => exact (hload _ _ _ rfl).elim
    | stored => exact (hstore' _ _ _ rfl).elim

/-! ## Rounds -/

variable (hstore : ∀ v slot, slot ∈ a.storedTo v → 0 ≤ slot)

include hstore

theorem subset_foldl_growInsn (lines : List ((InsnId × Insn) × Frame)) (s : IndexSet) :
    s ⊆ lines.foldl (growInsn a) s := by
  refine List.foldlRecOn (motive := (s ⊆ ·)) lines (growInsn a) s.subset_refl ?_
  intro t hst line _ k hk
  exact (mem_growInsn hstore line).mpr (.inl (hst k hk))

/-- A round adds all that the set pulls when the round begins. -/
theorem mem_growRound_of_pulls {line : (InsnId × Insn) × Frame} (hline : line ∈ a.reachable) {j : Int}
    (hpulls : Pulls a line j k) (hj : s.contains j = true) : k ∈ growRound a s := by
  -- whatever was added before the instruction is reached, `j` is still there
  obtain ⟨before, behind, hlines⟩ := List.append_of_mem hline
  rw [growRound, hlines, List.foldl_append, List.foldl_cons]
  apply subset_foldl_growInsn hstore behind
  have hj' := contains_mono (subset_foldl_growInsn hstore before s) hj
  exact (mem_growInsn hstore line).mpr (.inr ⟨j, hj', hpulls⟩)

/-- A round adds nothing but what is pulled by some slot. -/
theorem mem_growRound_cases (h : k ∈ growRound a s) : k ∈ s ∨ ∃ line ∈ a.reachable, ∃ j, Pulls a line j k := by
  refine List.foldlRecOn (motive := fun t => k ∈ t → k ∈ s ∨ ∃ line ∈ a.reachable, ∃ j, Pulls a line j k)
    a.reachable (growInsn a) .inl ?_ h
  intro t ht line hline hk
  rcases (mem_growInsn hstore line).mp hk with hk | ⟨j, -, hpulls⟩
  · exact ht hk
  · exact .inr ⟨line, hline, j, hpulls⟩

/-- A round stays below every closed set. -/
theorem growRound_subset_closed (ht : Closed a t) (hs : s ⊆ t) : growRound a s ⊆ t := by
  refine List.foldlRecOn (motive := (· ⊆ t)) a.reachable (growInsn a) hs ?_
  intro u hu line hline k hk
  rcases (mem_growInsn hstore line).mp hk with hk | ⟨j, hj, hpulls⟩
  · exact hu k hk
  · exact ht line hline j k hpulls (contains_mono hu hj)

/-- A round that adds nothing comes to a closed set. -/
theorem closed_of_growRound (h : (growRound a s).equal s = true) : Closed a (growRound a s) := by
  intro line hline j k hpulls hj
  exact mem_growRound_of_pulls hstore hline hpulls (contains_mono (subset_of_equal h) hj)

end

/-- Rounds from the first set until one adds nothing, however many that takes: they come to the second set, and
their number is `n`. -/
inductive Settles (a : Analysis) : IndexSet → IndexSet → Nat → Prop
  | last {s : IndexSet} (h : (growRound a s).equal s = true) : Settles a s (growRound a s) 1
  | more {s t : IndexSet} {n : Nat} (h : (growRound a s).equal s = false) (hrest : Settles a (growRound a s) t n) :
      Settles a s t (n + 1)

/-- Where rounds come to is the least closed set above where they start. -/
theorem Settles.least {a : Analysis} {s t : IndexSet} {n : Nat} (h : Settles a s t n)
    (hstore : ∀ v slot, slot ∈ a.storedTo v → 0 ≤ slot) :
    Closed a t ∧ s ⊆ t ∧ ∀ u, Closed a u → s ⊆ u → t ⊆ u := by
  induction h with
  | last h =>
    exact ⟨closed_of_growRound hstore h, subset_foldl_growInsn hstore _ _,
      fun u hu hsu => growRound_subset_closed hstore hu hsu⟩
  | more _ _ ih =>
    obtain ⟨hclosed, hsub, hleast⟩ := ih
    exact ⟨hclosed, subset_trans (subset_foldl_growInsn hstore _ _) hsub,
      fun u hu hsu => hleast u hu (growRound_subset_closed hstore hu hsu)⟩

/-! ## The number of rounds -/

section

variable {owner : Text} {m : Method} {a : Analysis}

theorem frame?_eq_some {user : InsnId} {f : Frame} (h : a.frame? user = some f) :
    ∃ p : Nat, a.before[p]? = some (some f) := by
  obtain ⟨p, -, hp⟩ := Option.bind_eq_some_iff.mp h
  exact ⟨p, Option.join_eq_some_iff.mp hp⟩

theorem slotEnd_le_of_mem_listing {id : InsnId} {x : Insn} (h : (id, x) ∈ m.code.listing) :
    x.slotEnd ≤ (Layout.ofMethod m).slotBound := by
  obtain ⟨p, hp⟩ := List.getElem?_of_mem h
  rw [← List.getElem?_toArray] at hp
  exact Layout.slotEnd_le_slotBound (l := .ofMethod m) hp

variable {k : Nat} {line : (InsnId × Insn) × Frame}

/-- The slots of a value on a stack are loaded by instructions of the code. -/
theorem accesses_of_mem_stack (ha : ofMethod owner m = .ok a) {p : Nat} {f : Frame}
    (hf : a.before[p]? = some (some f)) {v : Value} (hv : v ∈ f.stack) (hk : k ∈ v.slots) : m.code.Accesses k := by
  obtain ⟨q, x, -, hx, op, rfl, -⟩ := (m.maintains_loaded owner).before ha hf v hv k hk
  exact ⟨q, op, hx⟩

/-- The users of a value are instructions of the code. -/
theorem accesses_of_mem_consumers (ha : ofMethod owner m = .ok a) {v : Value} {user : Nat}
    (huser : user ∈ a.consumers v) {op : Opcode} (hinsn : a.insn? user = some (.var op k)) : m.code.Accesses k := by
  obtain ⟨⟨id, used⟩, hu, -, rfl⟩ := mem_consumers.mp huser
  obtain ⟨x, f, r, hx, -⟩ := step_of_mem_uses ha hu
  obtain ⟨hid, hget⟩ := Code.nonneg_of_mem_listing hx
  rw [insn?, (ofMethod_ok ha).1, Int.toNat_of_nonneg hid] at hinsn
  obtain rfl := Option.some.inj (hget.symm.trans hinsn)
  exact ⟨id, op, hx⟩

theorem before_of_mem_reachable (h : line ∈ a.reachable) : ∃ p : Nat, a.before[p]? = some (some line.2) := by
  obtain ⟨p, hp⟩ := List.getElem?_of_mem (mem_framed_of_mem_reachable h)
  exact ⟨p, by simpa using (List.getElem?_zip_eq_some.mp hp).2⟩

/-- Only slots that the code accesses are pulled. -/
theorem Pulls.accesses (ha : ofMethod owner m = .ok a)
    (hline : line ∈ a.reachable) {j : Int} (h : Pulls a line j k) : m.code.Accesses k := by
  cases h with
  | loaded hv huser hjoins =>
    cases hjoins with
    | compared _ hf hw hk =>
      obtain ⟨p, hp⟩ := frame?_eq_some hf
      exact accesses_of_mem_stack ha hp (Frame.mem_of_opposite? hw) hk
    | copied hinsn => exact accesses_of_mem_consumers ha huser hinsn
  | stored hv hk =>
    obtain ⟨p, hp⟩ := before_of_mem_reachable hline
    exact accesses_of_mem_stack ha hp (List.mem_of_mem_head? hv) hk

theorem Pulls.lt_slotBound (ha : ofMethod owner m = .ok a)
    (hline : line ∈ a.reachable) {j : Int} (h : Pulls a line j k) : k < a.layout.slotBound := by
  obtain ⟨id, op, hx⟩ := h.accesses ha hline
  have := slotEnd_le_of_mem_listing hx
  rw [(ofMethod_ok ha).1]
  simp only [Insn.slotEnd, Int.toNat_natCast] at this
  omega

/-- The slots that the code can access and that are not in the set. -/
def missing (a : Analysis) (s : IndexSet) : Finset Nat :=
  Finset.range a.layout.slotBound \ s.toList.toFinset

/-- A round that adds something leaves fewer slots to add. -/
theorem missing_growRound_lt (ha : ofMethod owner m = .ok a) {s : IndexSet}
    (h : (growRound a s).equal s = false) : (missing a (growRound a s)).card < (missing a s).card := by
  have hstore : ∀ v slot, slot ∈ a.storedTo v → 0 ≤ slot := fun _ _ => storedTo_nonneg ha
  have hsub := subset_foldl_growInsn hstore a.reachable s
  obtain ⟨k, hk, hks⟩ : ∃ k, k ∈ growRound a s ∧ ¬ k ∈ s := by
    by_contra hnot
    have hback : growRound a s ⊆ s := fun k hk => by_contra fun hks => hnot ⟨k, hk, hks⟩
    rw [equal_of_subset hback hsub] at h
    cases h
  have hfewer : missing a (growRound a s) ⊆ missing a s :=
    Finset.sdiff_subset_sdiff subset_rfl (toFinset_subset hsub)
  refine Finset.card_lt_card ((Finset.ssubset_iff_of_subset hfewer).mpr ⟨k, ?_, ?_⟩)
  · rcases mem_growRound_cases hstore hk with hs | ⟨line, hline, j, hpulls⟩
    · exact absurd hs hks
    · refine Finset.mem_sdiff.mpr ⟨Finset.mem_range.mpr (hpulls.lt_slotBound ha hline), ?_⟩
      rwa [List.mem_toFinset, mem_toList]
  · intro hmem
    exact (Finset.mem_sdiff.mp hmem).2 (List.mem_toFinset.mpr (mem_toList.mpr hk))

theorem settles_growRounds (ha : ofMethod owner m = .ok a) {fuel : Nat} {s : IndexSet}
    (hfuel : (missing a s).card < fuel) : Settles a s (growRounds a fuel s).1 (growRounds a fuel s).2 := by
  induction fuel generalizing s with
  | zero => exact absurd hfuel (Nat.not_lt_zero _)
  | succ fuel ih =>
    rw [growRounds]
    simp only
    split
    · next h => exact .last h
    · next h =>
      have h : (growRound a s).equal s = false := by simpa using h
      exact .more h (ih (by have := missing_growRound_lt ha h; omega))

/-- The rounds that closing allows for are enough. -/
theorem settles_close (ha : ofMethod owner m = .ok a) (s : IndexSet) :
    Settles a s (close a s).1 (close a s).2 := by
  apply settles_growRounds ha
  have hcard : (missing a s).card ≤ a.layout.slotBound :=
    (Finset.card_le_card Finset.sdiff_subset).trans (Finset.card_range _).le
  rw [roundBound]
  omega

/-- Closing a set ends, and gives the least closed set above it. So closing twice is closing once, and closing a larger
set gives a larger set. -/
theorem close_least (ha : Analysis.ofMethod owner m = .ok a) (s : IndexSet) :
    Settles a s (close a s).1 (close a s).2 ∧
    (Closed a (close a s).1 ∧ s ⊆ (close a s).1 ∧ ∀ t, Closed a t → s ⊆ t → (close a s).1 ⊆ t) ∧
    (close a (close a s).1).1.equal (close a s).1 = true ∧
    ∀ t, s ⊆ t → (close a s).1 ⊆ (close a t).1 := by
  have hleast : ∀ s, Closed a (close a s).1 ∧ s ⊆ (close a s).1 ∧ ∀ t, Closed a t → s ⊆ t → (close a s).1 ⊆ t :=
    fun s => (settles_close ha s).least fun _ _ => storedTo_nonneg ha
  obtain ⟨hclosed, habove, hbelow⟩ := hleast s
  refine ⟨settles_close ha s, hleast s, ?_, ?_⟩
  · obtain ⟨-, habove', hbelow'⟩ := hleast (close a s).1
    exact equal_of_subset (hbelow' _ hclosed (subset_refl _)) habove'
  · intro t hst
    obtain ⟨hclosed', habove', -⟩ := hleast t
    exact hbelow _ hclosed' (subset_trans hst habove')

end

/-- A method that compares two of its parameters and copies the second to the third. -/
def relay : Method :=
  ⟨"m", "(JJJ)V", ⟨8⟩, .ofList [.var .lload 0, .var .lload 2, .plain .lcmp, .plain .pop, .var .lload 2, .var .lstore 4,
    .plain .returnVoid], [], [], 4, 6⟩

/-- The third parameter pulls the second, and only in the next round does that pull the first. -/
theorem close_least_relay : ∃ a, Analysis.ofMethod "C" relay = .ok a ∧
    Settles a (.singleton 4) (close a (.singleton 4)).1 3 ∧ Closed a (close a (.singleton 4)).1 ∧
    (close a (.singleton 4)).1.toList = [0, 2, 4] ∧ ∀ t, Closed a t → IndexSet.singleton 4 ⊆ t → 0 ∈ t := by
  have hclose : ((ofMethod "C" relay).toOption.map fun a =>
      (close a (.singleton 4)).1.toList = [0, 2, 4] && (close a (.singleton 4)).2 = 3) = some true := by decide +kernel
  obtain ⟨a, ha, hclose⟩ := except_ok_of_map hclose
  simp only [Bool.and_eq_true, decide_eq_true_eq] at hclose
  obtain ⟨hslots, hrounds⟩ := hclose
  obtain ⟨hsettles, ⟨hclosed, -, hleast⟩, -, -⟩ := close_least ha (.singleton 4)
  rw [hrounds] at hsettles
  refine ⟨a, ha, hsettles, hclosed, hslots, fun t ht hfour => hleast t ht hfour 0 ?_⟩
  exact mem_toList.mp (by rw [hslots]; decide)

end Expansion

end CoordSplit
