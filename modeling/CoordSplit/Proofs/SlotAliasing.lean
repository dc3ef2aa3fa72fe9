import CoordSplit.Proofs.MovedCode
import CoordSplit.Proofs.SharedProducers

/-!
# Moved slots alias as before

An instruction accesses one local slot, or two if it moves a long or a double. After the move an access to an expanded
slot is one to three slots. If the check of an expansion set accepts the code, the slots from `s` up to but not
including `t` that an instruction accesses become those from the place of `s` up to the place of `t`
(`place_access`). Places keep the order of slots, so two instructions access a common slot after the move iff
they did before (`meet_mapInsn`). A slot whose place is past the greatest slot comes round, and may then meet another
one.

Moving the code changes the instructions of its sequence one by one (`moveAll_reaches`), and of each nothing but the
slot (`Code.Relocated`).
-/

set_option autoImplicit false

namespace CoordSplit

/-! ## Places of neighbours -/

namespace IndexSet

/-- The members below a slot, counted. -/
theorem countBelow_eq_ncard (s : IndexSet) (k : Int) : s.countBelow k = {e : Nat | e ∈ s ∧ (e : Int) < k}.ncard := by
  have hset : {e : Nat | e ∈ s ∧ (e : Int) < k} = (s.toList.filter fun (e : Nat) => (e : Int) < k).toFinset := by
    ext e
    simp [mem_toList, mem_iff]
  rw [hset, Set.ncard_coe_finset, List.toFinset_card_of_nodup (s.toList_nodup.filter _), countBelow,
    List.countP_eq_length_filter]

/-- Behind a member one more is counted. -/
theorem countBelow_add_one (s : IndexSet) (k : Int) :
    s.countBelow (k + 1) = s.countBelow k + if s.contains k then 1 else 0 := by
  have hcount : ∀ l : List Nat, l.countP (fun (e : Nat) => (e : Int) < k + 1) =
      l.countP (fun (e : Nat) => (e : Int) < k) + l.countP fun (e : Nat) => (e : Int) = k := by
    intro l
    induction l with
    | nil => rfl
    | cons e l ih =>
      simp only [List.countP_cons, ih, decide_eq_true_eq]
      split_ifs <;> omega
  rw [countBelow, countBelow, hcount]
  split
  · next hk =>
    obtain ⟨j, rfl, hj⟩ := (s.contains_iff k).mp hk
    have hone := List.count_eq_one_of_mem s.toList_nodup (mem_toList.mpr hj)
    rw [← hone, List.count]
    simp [beq_eq_decide]
  · next hk =>
    rw [Nat.add_left_cancel_iff, List.countP_eq_zero]
    intro e he
    rw [decide_eq_true_eq]
    rintro rfl
    exact hk ((s.contains_iff e).mpr ⟨e, rfl, mem_toList.mp he⟩)

end IndexSet

/-! ## Accessed slots -/

namespace Insn

/-- The first local slot that an instruction accesses, and the number of them. -/
def access? : Insn → Option (Int × Nat)
  | .var op slot => some (slot, (op.varType?.map ValueType.size).getD 1)
  | .iinc slot _ => some (slot, 1)
  | _ => none

/-- The local slots that an instruction accesses, where every slot for which `triple` holds is the first of three that
are accessed together. -/
def slots (triple : Int → Bool) (x : Insn) : Set Int :=
  match x.access? with
  | some (slot, width) => Set.Ico slot (slot + if triple slot then 3 else (width : Int))
  | none => ∅

/-- The same instruction but for its local slot, which `g` gives. -/
inductive Relocates (g : Int → Int) : Insn → Insn → Prop
  | var (op : Opcode) (slot : Int) : Relocates g (.var op slot) (.var op (g slot))
  | iinc (slot : Int) (delta : Int32) : Relocates g (.iinc slot delta) (.iinc (g slot) delta)
  | rest {x : Insn} (h : x.access? = none) : Relocates g x x

end Insn

/-- What loads and stores move takes one slot or two. -/
theorem Opcode.varType?_size {op : Opcode} {t : ValueType} (h : op.varType? = some t) : t.size = 1 ∨ t.size = 2 := by
  unfold varType? at h
  split at h <;> cases h <;> decide

namespace SlotMap

variable {E : IndexSet} {id : InsnId} {x y : Insn}

/-- The place of the next slot. -/
theorem place_add_one (E : IndexSet) (s : Int) : place E (s + 1) = place E s + if E.contains s then 2 else 1 := by
  rw [place, place, E.countBelow_add_one]
  split <;> push_cast <;> ring

/-- Moving an instruction changes no more than its slot. -/
theorem mapInsn_relocates (m : SlotMap) (x : Insn) : x.Relocates m.map (m.mapInsn x) := by
  cases x with
  | var op slot => exact .var op slot
  | iinc slot delta => exact .iinc slot delta
  | _ => exact .rest rfl

/-- What an instruction accesses is moved with it. -/
theorem access?_mapInsn (m : SlotMap) (x : Insn) :
    (m.mapInsn x).access? = x.access?.map fun p => (m.map p.1, p.2) := by
  cases x <;> rfl

variable {slot : Int} {width : Nat}

section

variable (h : Expansion.checkInsn E id x = .ok ()) (hx : x.access? = some (slot, width))

include h hx

/-- An accepted access is one slot wide and not to an expanded one, or two slots wide and no expanded slot starts in
the second. -/
theorem width_of_checkInsn :
    width = 1 ∧ E.contains slot = false ∨ width = 2 ∧ E.contains (slot + 1) = false := by
  rw [Expansion.checkInsn.eq_def] at h
  split at h
  · cases h
  · next haccess =>
    cases x with
    | var op s =>
      obtain ⟨rfl, rfl⟩ := Prod.mk.inj (Option.some.inj hx)
      have hlong : E.contains s = true → op.varType? = some .long := by
        intro hs
        rcases (checkAccess_var_ok.mp haccess).whole hs with rfl | rfl <;> rfl
      cases ht : op.varType? with
      | none =>
        refine .inl ⟨rfl, ?_⟩
        by_contra hs
        cases ht.symm.trans (hlong (by simpa using hs))
      | some t =>
        simp only [ht] at h
        rcases Opcode.varType?_size ht with hsize | hsize
        · refine .inl ⟨hsize, ?_⟩
          by_contra hs
          cases ht.symm.trans (hlong (by simpa using hs))
          cases hsize
        · refine .inr ⟨hsize, ?_⟩
          by_contra hs
          rw [if_pos ⟨hsize, by simpa using hs⟩] at h
          cases h
    | iinc s delta =>
      obtain ⟨rfl, rfl⟩ := Prod.mk.inj (Option.some.inj hx)
      rw [Insn.checkAccess] at haccess
      split at haccess
      · cases haccess
      · next hs => exact .inl ⟨rfl, by simpa using hs⟩
    | _ => cases hx

/-- The slot behind an accepted access goes right behind the slots of the moved access. -/
theorem place_access :
    place E (slot + width) = place E slot + if E.contains slot then 3 else (width : Int) := by
  rcases width_of_checkInsn h hx with ⟨rfl, hfree⟩ | ⟨rfl, hfree⟩
  · rw [Nat.cast_one, place_add_one, hfree]
    rfl
  · rw [show slot + (2 : Nat) = slot + 1 + 1 by push_cast; ring, place_add_one, place_add_one, hfree]
    split <;> simp [add_assoc]

/-- What an accepted access to a slot with a place accesses after the move. -/
theorem slots_mapInsn (hslot : place E slot < Slot.limit) :
    ((ofSlots E).mapInsn x).slots (ofSlots E).isFirst = Set.Ico (place E slot) (place E (slot + width)) := by
  rw [Insn.slots, access?_mapInsn, hx, place_access h hx]
  simp only [Option.map_some, map_eq_place hslot, isFirst_place]

end

/-- Two instructions that the check accepts, and whose slots have places, access a common slot after the move iff they
did before. -/
theorem meet_mapInsn {i j : InsnId} (hx : Expansion.checkInsn E i x = .ok ())
    (hy : Expansion.checkInsn E j y = .ok ()) (hfits : ∀ p, x.access? = some p → place E p.1 < Slot.limit)
    (hfits' : ∀ p, y.access? = some p → place E p.1 < Slot.limit) :
    (((ofSlots E).mapInsn x).slots (ofSlots E).isFirst ∩ ((ofSlots E).mapInsn y).slots (ofSlots E).isFirst).Nonempty ↔
      (x.slots (fun _ => false) ∩ y.slots fun _ => false).Nonempty := by
  have hmono : StrictMono (place E) := fun _ _ => place_lt_place E
  cases hax : x.access? with
  | none => simp [Insn.slots, access?_mapInsn, hax]
  | some p =>
    cases hay : y.access? with
    | none => simp [Insn.slots, access?_mapInsn, hay]
    | some q =>
      rw [slots_mapInsn hx hax (hfits p hax), slots_mapInsn hy hay (hfits' q hay), Insn.slots, Insn.slots, hax, hay]
      simp only [Bool.false_eq_true, if_false]
      rw [Set.Ico_inter_Ico, Set.Ico_inter_Ico, Set.nonempty_Ico, Set.nonempty_Ico, ← hmono.monotone.map_min,
        ← hmono.monotone.map_max, hmono.lt_iff_lt]

end SlotMap

/-! ## The moved code -/

/-- The same code but for the slots of the instructions in its sequence, which `g` gives. -/
structure Code.Relocated (g : Int → Int) (c d : Code) : Prop where
  first : d.first = c.first
  last : d.last = c.last
  live : d.live = c.live
  capacity : d.capacity = c.capacity
  listed : ∀ id n, c.node? id = some n → id ∈ c.listing.map Prod.fst →
    ∃ y, n.insn.Relocates g y ∧ d.node? id = some { n with insn := y }
  unlisted : ∀ id n, c.node? id = some n → id ∉ c.listing.map Prod.fst → d.node? id = some n

namespace SlotMap

variable {m : SlotMap} {c : Code}

/-- What has become of the code when the instructions with the ids `done` have been moved. -/
structure Reaches (m : SlotMap) (c : Code) (done : List InsnId) (r : Moved) : Prop where
  refused : r.refused = none
  first : r.code.first = c.first
  last : r.code.last = c.last
  live : r.code.live = c.live
  size : r.code.nodes.size = c.nodes.size
  node? : ∀ id, r.code.node? id =
    (c.node? id).map fun n => if id ∈ done then { n with insn := m.mapInsn n.insn } else n

variable {done : List InsnId} {r : Moved} {id : InsnId} {x : Insn}

/-- One more instruction is moved. -/
theorem Reaches.modify (h : m.Reaches c done r) (hx : c.get? id = some x) :
    m.Reaches c (done ++ [id])
      { r with code := r.code.modify id fun n => { n with insn := m.mapInsn x }, changed := true } := by
  refine ⟨h.refused, by simpa using h.first, by simpa using h.last, by simpa using h.live, by simpa using h.size,
    fun i => ?_⟩
  obtain ⟨n, hn, rfl⟩ := Option.map_eq_some_iff.mp hx
  rw [Code.node?_modify, h.node?]
  by_cases hi : i = id
  · subst hi
    simp only [hn, if_true, Option.map_some, List.mem_append, List.mem_singleton, or_true]
    split <;> rfl
  · simp [hi]

/-- An instruction that moving leaves as it is counts as moved. -/
theorem Reaches.skip (h : m.Reaches c done r)
    (hx : c.get? id = some x) (hsame : m.mapInsn x = x) : m.Reaches c (done ++ [id]) r := by
  refine ⟨h.refused, h.first, h.last, h.live, h.size, fun i => ?_⟩
  obtain ⟨n, hn, rfl⟩ := Option.map_eq_some_iff.mp hx
  rw [h.node?]
  by_cases hi : i = id
  · subst hi
    simp only [hn, Option.map_some, List.mem_append, List.mem_singleton, or_true, if_true, hsame, ite_self]
  · simp [hi]

/-- All lines that are accepted are moved. -/
theorem moveAll_reaches {ls : List (InsnId × Insn)} (h : m.Reaches c done r)
    (hls : ∀ p ∈ ls, c.get? p.1 = some p.2) (hok : ∀ p ∈ ls, p.2.checkAccess m.expanded p.1 = .ok ()) :
    m.Reaches c (done ++ ls.map Prod.fst) (m.moveAll ls r) := by
  induction ls generalizing done r with
  | nil => simpa [moveAll] using h
  | cons p ls ih =>
    obtain ⟨hx, hls⟩ := List.forall_mem_cons.mp hls
    obtain ⟨hp, hok⟩ := List.forall_mem_cons.mp hok
    rw [moveAll, hp, List.map_cons, List.append_cons]
    simp only
    split
    · next hsame => exact ih (h.skip hx hsame) hls hok
    · exact ih (h.modify hx) hls hok

/-- A code whose accesses are all accepted is moved to the end. -/
theorem apply_reaches (hok : ∀ p ∈ c.listing, p.2.checkAccess m.expanded p.1 = .ok ()) :
    m.Reaches c (c.listing.map Prod.fst) (m.apply c) := by
  have hstart : m.Reaches c [] ⟨c, false, none⟩ := ⟨rfl, rfl, rfl, rfl, rfl, by simp⟩
  exact moveAll_reaches hstart (fun p hp => (Code.nonneg_of_mem_listing hp).2) hok

/-- When all lines are moved, the code is. -/
theorem Reaches.relocated (h : m.Reaches c (c.listing.map Prod.fst) r) : c.Relocated m.map r.code := by
  refine ⟨h.first, h.last, h.live, h.size, fun id n hn hid => ?_, fun id n hn hid => ?_⟩
  · refine ⟨m.mapInsn n.insn, m.mapInsn_relocates n.insn, ?_⟩
    rw [h.node?, hn, Option.map_some, if_pos hid]
  · rw [h.node?, hn, Option.map_some, if_neg hid]

/-- Each line is moved. -/
theorem Reaches.get? (h : m.Reaches c (c.listing.map Prod.fst) r)
    (hx : (id, x) ∈ c.listing) : r.code.get? id = some (m.mapInsn x) := by
  obtain ⟨n, hn, rfl⟩ := Option.map_eq_some_iff.mp (Code.nonneg_of_mem_listing hx).2
  rw [Code.get?, h.node?, hn, Option.map_some, Option.map_some, if_pos (List.mem_map_of_mem hx)]

/-- The check has looked at every line. -/
theorem checkInsn_of_check {owner : Text} {m : Method} {a : Analysis} {E : IndexSet}
    (ha : Analysis.ofMethod owner m = .ok a) (hE : Expansion.check a E = .ok ())
    (hx : (id, x) ∈ m.code.listing) : Expansion.checkInsn E id x = .ok () := by
  rw [Expansion.check, (Analysis.ofMethod_ok ha).1] at hE
  exact ExpansionContext.forM_ok hE (id, x) hx

/-- A line that passed the check can be moved. -/
theorem checkAccess_of_checkInsn {E : IndexSet} (h : Expansion.checkInsn E id x = .ok ()) :
    x.checkAccess E id = .ok () := by
  rw [Expansion.checkInsn.eq_def] at h
  split at h
  · cases h
  · next haccess => exact haccess

/-- If the check accepts the expanded slots, moving a code succeeds and changes nothing but slots. The place of a slot
is above it by the number of expanded slots below. The new slot is the place in 64 bits, and so the place itself iff
that is below the limit. Slots with such places keep their order, and the first of the three slots that an expanded
slot becomes is told from them. Instructions that name such slots access a common slot iff they did before. -/
theorem apply_keeps_aliasing {owner : Text} {m : Method} {a : Analysis} {E : IndexSet}
    (ha : Analysis.ofMethod owner m = .ok a) (hE : Expansion.check a E = .ok ()) :
    ((ofSlots E).apply m.code).refused = none ∧
    m.code.Relocated (ofSlots E).map ((ofSlots E).apply m.code).code ∧
    (∀ s, place E s = s + {e : Nat | e ∈ E ∧ (e : Int) < s}.ncard) ∧
    (∀ s, -Slot.limit ≤ s → s < Slot.limit → (ofSlots E).map s = (place E s).bmod (2 ^ 64)) ∧
    (∀ s, s < Slot.limit → ((ofSlots E).map s = place E s ↔ place E s < Slot.limit)) ∧
    StrictMonoOn (ofSlots E).map {s | place E s < Slot.limit} ∧
    (∀ s, place E s < Slot.limit → (ofSlots E).isFirst ((ofSlots E).map s) = (ofSlots E).isExpanded s) ∧
    ∀ i j x y x' y', (i, x) ∈ m.code.listing → (j, y) ∈ m.code.listing →
      ((ofSlots E).apply m.code).code.get? i = some x' → ((ofSlots E).apply m.code).code.get? j = some y' →
      (∀ p, x.access? = some p ∨ y.access? = some p → place E p.1 < Slot.limit) →
      ((x'.slots (ofSlots E).isFirst ∩ y'.slots (ofSlots E).isFirst).Nonempty ↔
        (x.slots (fun _ => false) ∩ y.slots fun _ => false).Nonempty) := by
  have hcheck : ∀ {id x}, (id, x) ∈ m.code.listing → Expansion.checkInsn E id x = .ok () := checkInsn_of_check ha hE
  have hmoved := apply_reaches (m := ofSlots E) fun p hp => checkAccess_of_checkInsn (hcheck hp)
  refine ⟨hmoved.refused, hmoved.relocated, fun s => ?_, fun s => map_eq_bmod, fun s hs => ?_, ?_, fun s hs => ?_, ?_⟩
  · rw [place, E.countBelow_eq_ncard]
  · exact ⟨fun heq => lt_of_map_eq_place hs heq, map_eq_place⟩
  · intro s hs t ht hlt
    rw [map_eq_place hs, map_eq_place ht]
    exact place_lt_place E hlt
  · rw [map_eq_place hs]
    exact isFirst_place E s
  · intro i j x y x' y' hx hy hx' hy' hfits
    obtain rfl := Option.some.inj ((hmoved.get? hx).symm.trans hx')
    obtain rfl := Option.some.inj ((hmoved.get? hy).symm.trans hy')
    exact meet_mapInsn (hcheck hx) (hcheck hy) (fun p hp => hfits p (.inl hp)) fun p hp => hfits p (.inr hp)

/-- A method that copies its first parameter to itself. It also has an increment of what would be the second word of
it, and loads of the least slot and of the greatest one, none of which is reached. -/
def straddling : Method :=
  ⟨"m", "(JIJ)V", ⟨8⟩, .ofList [.var .lload 0, .var .lstore 0, .var .lload 3, .plain .pop2, .plain .returnVoid,
    .iinc 1 1, .var .iload (-Slot.limit), .var .iload (Slot.limit - 1)], [], [], 2, 5⟩

/-- The increment goes to the last of the three slots, and both still meet. The greatest slot comes round to the least
one, which stays where it is. -/
theorem apply_keeps_aliasing_straddling : ∃ a, Analysis.ofMethod "C" straddling = .ok a ∧
    Expansion.check a (.singleton 0) = .ok () ∧ ((ofSlots (.singleton 0)).apply straddling.code).refused = none ∧
    straddling.code.Relocated (ofSlots (.singleton 0)).map ((ofSlots (.singleton 0)).apply straddling.code).code ∧
    ((Insn.var .lload 0).slots (ofSlots (.singleton 0)).isFirst ∩
      (Insn.iinc 2 1).slots (ofSlots (.singleton 0)).isFirst).Nonempty ∧
    (ofSlots (.singleton 0)).map (Slot.limit - 1) = -Slot.limit ∧
    (ofSlots (.singleton 0)).map (-Slot.limit) = -Slot.limit ∧
    ((ofSlots (.singleton 0)).apply straddling.code).code.get? 6 =
      ((ofSlots (.singleton 0)).apply straddling.code).code.get? 7 := by
  have h : ((Analysis.ofMethod "C" straddling).toOption.bind fun a =>
      (Expansion.check a (.singleton 0)).toOption) = some () := by decide +kernel
  obtain ⟨a, ha, hE⟩ := Option.bind_eq_some_iff.mp h
  have ha := except_ok_of_toOption ha
  have hE := except_ok_of_toOption hE
  obtain ⟨hrefused, hrelocated, -, hbmod, -, -, -, halias⟩ := apply_keeps_aliasing ha hE
  refine ⟨a, ha, hE, hrefused, hrelocated, ?_, (hbmod _ (by decide) (by decide)).trans (by decide),
    (hbmod _ (by decide) (by decide)).trans (by decide), by decide +kernel⟩
  rw [halias 0 5 (.var .lload 0) (.iinc 1 1) _ _ (by decide +kernel) (by decide +kernel) (by decide +kernel)
    (by decide +kernel) (by rintro p (hp | hp) <;> obtain rfl := Option.some.inj hp <;> decide)]
  exact ⟨1, by constructor <;> decide, by constructor <;> decide⟩

end SlotMap

end CoordSplit
