import CoordSplit.Proofs.MovedCode
import CoordSplit.Proofs.Verification

/-!
# Typing of code with moved slots

If a code is typed, so is the code with its slots moved: what is known of the local slots moves with them, and what
takes two words in an expanded slot is known as three ints (`Typed.moved`).

The lines may have roles. A line with a role is not yet the instruction that it is going to be: it is read as
another one, or pushes the parts of a long in place of the long.
-/

set_option autoImplicit false

namespace CoordSplit

/-! ## Roles -/

/-- How a line is read: as another instruction, and as pushing one part or all parts of the long that it
pushes. -/
structure Role where
  reads : Option Insn
  gives : Option (Option Axis)

/-- The role of a line that is what it is. -/
def Role.plain : Role := ⟨none, none⟩

/-- The kinds of one part of a long, or of all three. -/
def partKinds : Option Axis → List Kind
  | none => [.int, .int, .int]
  | some _ => [.int]

/-- What a line does to what is known, given its role. -/
def RoleStep (first : Int → Bool) (role : Role) (x : Insn) (t t' : FrameType) : Prop :=
  match role.gives with
  | none => KindStep first (role.reads.getD x) t t'
  | some part => ∃ rest, KindStep first (role.reads.getD x) t ⟨.long :: rest, t'.locals⟩ ∧
      t'.stack = partKinds part ++ rest

/-! ## Moved slots -/

/-- What is known of the slots after they have been moved. -/
def LocalKinds.move (E : IndexSet) (L : LocalKinds) : LocalKinds := fun j κ =>
  (∃ e κ', E.contains e = true ∧ L e κ' ∧ κ'.isWide = true ∧ SlotMap.place E e ≤ j ∧ j < SlotMap.place E e + 3 ∧
      κ = .int) ∨
    ∃ s, E.contains s = false ∧ L s κ ∧ j = SlotMap.place E s

/-- What is known after the slots have been moved. -/
def FrameType.move (E : IndexSet) (t : FrameType) : FrameType := ⟨t.stack, t.locals.move E⟩

/-- The table for the code with its slots moved. -/
def TypeTable.move (E : IndexSet) (T : TypeTable) : TypeTable := fun id => (T id).map (FrameType.move E)

namespace LocalKinds

open SlotMap

variable {E : IndexSet} {L : LocalKinds}

/-- What is known after three ints are stored. -/
theorem storeParts_iff (L : LocalKinds) (j k : Int) (κ : Kind) :
    L.storeParts j k κ ↔
      if j ≤ k ∧ k < j + 3 then κ = .int else L k κ ∧ ¬ (k = j - 1 ∧ κ.isWide = true) := by
  have hint : Kind.int.isWide = false := rfl
  simp only [storeParts, store, hint, Bool.false_eq_true, and_false, not_false_eq_true, true_and]
  by_cases h₂ : k = j + 2
  · rw [if_pos h₂, if_pos (by omega)]
  · rw [if_neg h₂]
    by_cases h₁ : k = j + 1
    · rw [if_pos h₁, if_pos (by omega)]
      constructor
      · exact fun h => h.1
      · rintro rfl
        exact ⟨rfl, by simp [hint]⟩
    · rw [if_neg h₁]
      by_cases h₀ : k = j
      · rw [if_pos h₀, if_pos (by omega)]
        constructor
        · exact fun h => h.1.1
        · rintro rfl
          exact ⟨⟨rfl, by simp [hint]⟩, by simp [hint]⟩
      · rw [if_neg h₀, if_neg (by omega)]
        constructor
        · exact fun h => h.1.1
        · exact fun h => ⟨⟨h, by omega⟩, by omega⟩

variable {j s : Int} {κ : Kind}

theorem move_mono {L' : LocalKinds} (h : ∀ j κ, L j κ → L' j κ) (hj : L.move E j κ) : L'.move E j κ := by
  rcases hj with ⟨e, κ', he, hL, hrange⟩ | ⟨s, hs, hL, rfl⟩
  · exact .inl ⟨e, κ', he, h e _ hL, hrange⟩
  · exact .inr ⟨s, hs, h s κ hL, rfl⟩

theorem move_place (hs : E.contains s = false) (h : L s κ) : L.move E (place E s) κ :=
  .inr ⟨s, hs, h, rfl⟩

theorem move_part {e k : Int} (he : E.contains e = true) (h : L e κ) (hκ : κ.isWide = true) (h₀ : 0 ≤ k)
    (h₃ : k < 3) : L.move E (place E e + k) .int :=
  .inl ⟨e, κ, he, h, hκ, by omega, by omega, rfl⟩

/-- Neighbours of a place are places of neighbours. -/
theorem eq_of_place_eq_sub_one {t : Int} (h : place E s = place E t - 1) : s = t - 1 := by
  by_contra hne
  rcases lt_or_gt_of_ne hne with hlt | hgt
  · have h₁ := place_lt_place E hlt
    have h₂ := place_lt_place E (show t - 1 < t by omega)
    omega
  · rcases eq_or_lt_of_le (show t ≤ s by omega) with rfl | hlt
    · omega
    · have := place_lt_place E hlt
      omega

theorem eq_of_place_eq_add_one {t : Int} (h : place E s = place E t + 1) : s = t + 1 := by
  have := eq_of_place_eq_sub_one (E := E) (s := t) (t := s) (by omega)
  omega

/-- Storing in a slot that is not expanded, and moving the slots. -/
theorem move_store {κ' : Kind} (hs : E.contains s = false) (h : (L.store s κ).move E j κ') :
    (L.move E).store (place E s) κ j κ' := by
  rw [store]
  rcases h with ⟨e, κe, he, hL, hκe, hle, hlt, rfl⟩ | ⟨s', hs', hL, rfl⟩
  · -- a part of what is in another slot
    have hne : e ≠ s := by
      rintro rfl
      rw [hs] at he
      cases he
    rw [store, if_neg hne] at hL
    obtain ⟨hlong, habove, hbelow⟩ := hL
    have hbelow' : e ≠ s - 1 := fun heq => hbelow ⟨heq, hκe⟩
    have hplace : place E e + 3 ≤ place E s ∨ place E s < place E e := by
      rcases lt_or_gt_of_ne hne with hlt' | hgt
      · exact .inl (place_add_three_le E he (by omega))
      · exact .inr (place_lt_place E hgt)
    rw [if_neg (by omega)]
    refine ⟨.inl ⟨e, κe, he, hlong, hκe, hle, hlt, rfl⟩, ?_, by simp [Kind.isWide]⟩
    rintro ⟨rfl, hwide⟩
    apply habove
    refine ⟨?_, hwide⟩
    apply eq_of_place_eq_add_one (E := E)
    omega
  · by_cases heq : s' = s
    · subst heq
      rw [store, if_pos rfl] at hL
      rw [if_pos rfl, hL]
    · rw [store, if_neg heq] at hL
      obtain ⟨hknown, habove, hbelow⟩ := hL
      rw [if_neg fun hplace => heq (place_inj E hplace)]
      refine ⟨.inr ⟨s', hs', hknown, rfl⟩, ?_, ?_⟩
      · rintro ⟨hplace, hwide⟩
        exact habove ⟨eq_of_place_eq_add_one hplace, hwide⟩
      · rintro ⟨hplace, hwide⟩
        exact hbelow ⟨eq_of_place_eq_sub_one hplace, hwide⟩

/-- Storing two words in an expanded slot, and moving the slots. -/
theorem move_storeParts {e : Int} {κ' : Kind} (he : E.contains e = true) (hκ' : κ'.isWide = true)
    (h : (L.store e κ').move E j κ) : (L.move E).storeParts (place E e) j κ := by
  rw [storeParts_iff]
  rcases h with ⟨e', κe, he', hL, hκe, hle, hlt, rfl⟩ | ⟨s, hs, hL, rfl⟩
  · by_cases heq : e' = e
    · subst heq
      rw [if_pos ⟨hle, hlt⟩]
    · rw [store, if_neg heq] at hL
      obtain ⟨hlong, habove, hbelow⟩ := hL
      have habove' : e' ≠ e + 1 := fun heq => habove ⟨heq, hκ'⟩
      have hbelow' : e' ≠ e - 1 := fun heq => hbelow ⟨heq, hκe⟩
      -- two expanded slots that are not neighbours have three slots each
      have hplace : place E e' + 3 ≤ place E e ∨ place E e + 3 ≤ place E e' := by
        rcases lt_or_gt_of_ne heq with hlt' | hgt
        · exact .inl (place_add_three_le E he' (by omega))
        · exact .inr (place_add_three_le E he (by omega))
      rw [if_neg (by omega)]
      exact ⟨.inl ⟨e', κe, he', hlong, hκe, hle, hlt, rfl⟩, by simp [Kind.isWide]⟩
  · have hne : s ≠ e := by
      rintro rfl
      rw [hs] at he
      cases he
    rw [store, if_neg hne] at hL
    obtain ⟨hknown, habove, hbelow⟩ := hL
    have habove' : s ≠ e + 1 := fun heq => habove ⟨heq, hκ'⟩
    have hplace : place E s < place E e ∨ place E e + 3 ≤ place E s := by
      rcases lt_or_gt_of_ne hne with hlt' | hgt
      · exact .inl (place_lt_place E hlt')
      · exact .inr (place_add_three_le E he (by omega))
    rw [if_neg (by omega)]
    refine ⟨.inr ⟨s, hs, hknown, rfl⟩, ?_⟩
    rintro ⟨hplace', hwide⟩
    exact hbelow ⟨eq_of_place_eq_sub_one hplace', hwide⟩

end LocalKinds

/-- The local slot that an instruction names. -/
def Insn.slot? : Insn → Option Int
  | .var _ slot => some slot
  | .iinc slot _ => some slot
  | _ => none

/-- An expanded slot is used as a long only, and the place of every slot is one. -/
def Insn.Movable (E : IndexSet) : Insn → Prop
  | .var op s => (E.contains s = true → op = .lload ∨ op = .lstore) ∧ SlotMap.place E s < Slot.limit
  | .iinc s _ => E.contains s = false ∧ SlotMap.place E s < Slot.limit
  | _ => True

/-- An instruction that the map accepts can be moved, if its slot has a place. -/
theorem Insn.movable_of_checkAccess {E : IndexSet} {x : Insn} {id : InsnId} (h : x.checkAccess E id = .ok ())
    (hslot : ∀ s, x.slot? = some s → SlotMap.place E s < Slot.limit) : x.Movable E := by
  cases x with
  | var op s => exact ⟨(SlotMap.checkAccess_var_ok.mp h).whole, hslot s rfl⟩
  | iinc s delta =>
    rw [checkAccess] at h
    split at h
    · cases h
    · next hs => exact ⟨Bool.eq_false_iff.mpr hs, hslot s rfl⟩
  | _ => trivial

section

open SlotMap

variable {E : IndexSet}

variable {x : Insn}

theorem mapInsn_of_signature? (m : SlotMap) {g : PlainSignature} (h : x.signature? = some g) : m.mapInsn x = x := by
  cases x <;> first
    | rfl
    | cases h

theorem exists_of_mapInsn_var {m : SlotMap} {op : Opcode} {j : Int} (h : m.mapInsn x = .var op j) :
    ∃ i, x = .var op i := by
  cases x with
  | var op' i =>
    obtain ⟨rfl, -⟩ := Insn.var.inj h
    exact ⟨i, rfl⟩
  | _ => cases h

/-- What uses no slot is not moved. -/
theorem eq_of_mapInsn {m : SlotMap} {y : Insn} (h : m.mapInsn x = y) (hvar : ∀ op j, y ≠ .var op j)
    (hiinc : ∀ j delta, y ≠ .iinc j delta) : x = y := by
  cases x with
  | var op j => exact absurd h.symm (hvar op _)
  | iinc j delta => exact absurd h.symm (hiinc _ delta)
  | _ => exact h

/-- A typed instruction is typed with its slot moved, and leaves no less known. -/
theorem Typing.moved {ks ks' : List Kind} {L L' : LocalKinds}
    (h : Typing (fun _ => false) x ks L ks' L') (hx : x.Movable E) :
    ∃ L'', Typing (ofSlots E).isFirst ((ofSlots E).mapInsn x) ks (L.move E) ks' L'' ∧
      ∀ j κ, L'.move E j κ → L'' j κ := by
  have hfirst : ∀ s, (ofSlots E).isFirst (place E s) = E.contains s := isFirst_place E
  cases h with
  | regular hg htakes hcall hgives =>
    rw [mapInsn_of_signature? _ hg]
    exact ⟨_, .regular hg htakes hcall hgives, fun _ _ hj => hj⟩
  | drop hop => exact ⟨_, .drop hop, fun _ _ hj => hj⟩
  | move hmove => exact ⟨_, .move hmove, fun _ _ hj => hj⟩
  | @load op t κ κ' s _ ht hop hκ hs hwide _ =>
    refine ⟨_, ?_, fun _ _ hj => hj⟩
    rw [mapInsn, map_eq_place hx.2]
    cases hE : E.contains s with
    | false => exact .load ht hop hκ (LocalKinds.move_place hE hs) hwide fun _ => (hfirst s).trans hE
    | true =>
      -- an expanded slot holds two words, of which three ints are known after the move
      obtain rfl : op = .lload := by
        rcases hx.1 hE with rfl | rfl
        · rfl
        · cases hop
      obtain rfl := Option.some.inj ht
      obtain rfl : Kind.long = κ := Option.some.inj hκ
      have hpart : ∀ k : Int, 0 ≤ k → k < 3 → L.move E (place E s + k) .int :=
        fun k h₀ h₃ => LocalKinds.move_part hE hs hwide h₀ h₃
      refine .loadParts ((hfirst s).trans hE) ?_ (hpart 1 (by omega) (by omega)) (hpart 2 (by omega) (by omega))
      simpa using hpart 0 (by omega) (by omega)
  | @store op t κ κ' s _ ht hop hκ hwide hs _ =>
    have hplace : 0 ≤ place E s := le_trans hs (le_place E s)
    rw [mapInsn, map_eq_place hx.2]
    cases hE : E.contains s with
    | false =>
      exact ⟨_, .store ht hop hκ hwide hplace fun _ => (hfirst s).trans hE,
        fun _ _ hj => LocalKinds.move_store hE hj⟩
    | true =>
      obtain rfl : op = .lstore := by
        rcases hx.1 hE with rfl | rfl
        · cases hop
        · rfl
      obtain rfl := Option.some.inj ht
      obtain rfl : Kind.long = κ := Option.some.inj hκ
      exact ⟨_, .storeParts ((hfirst s).trans hE) hwide hplace, fun _ _ hj => LocalKinds.move_storeParts hE hwide hj⟩
  | loadParts hfirst => cases hfirst
  | storeParts hfirst => cases hfirst
  | increment hs =>
    rw [mapInsn, map_eq_place hx.2]
    exact ⟨_, .increment (LocalKinds.move_place hx.1 hs), fun _ _ hj => hj⟩

/-- A line may be read as an instruction that uses no slots. -/
def Role.Slotless (role : Role) : Prop := ∀ y, role.reads = some y → ∃ g, y.signature? = some g

/-- A step in a role is moved with the slots. -/
theorem RoleStep.moved {role : Role} {t t' : FrameType}
    (h : RoleStep (fun _ => false) role x t t') (hx : x.Movable E) (hrole : role.Slotless) :
    ∃ t'', RoleStep (ofSlots E).isFirst role ((ofSlots E).mapInsn x) (t.move E) t'' ∧ t''.Refines (t'.move E) := by
  -- what the line is read as moves like the line
  have hreads : role.reads.getD ((ofSlots E).mapInsn x) = (ofSlots E).mapInsn (role.reads.getD x) ∧
      (role.reads.getD x).Movable E := by
    cases hy : role.reads with
    | none => exact ⟨rfl, hx⟩
    | some y =>
      obtain ⟨g, hg⟩ := hrole y hy
      refine ⟨(mapInsn_of_signature? _ hg).symm, ?_⟩
      show y.Movable E
      cases y <;> trivial
  obtain ⟨hmap, hmovable⟩ := hreads
  rw [RoleStep] at h
  cases hgives : role.gives with
  | none =>
    simp only [hgives] at h
    obtain ⟨ks, ks', rest, hks, hks', htyping⟩ := h
    obtain ⟨L, hL, hrefines⟩ := htyping.moved hmovable
    refine ⟨⟨t'.stack, L⟩, ?_, rfl, hrefines⟩
    rw [RoleStep, hgives]
    exact ⟨ks, ks', rest, hks, hks', hmap ▸ hL⟩
  | some part =>
    simp only [hgives] at h
    obtain ⟨below, ⟨ks, ks', rest, hks, hks', htyping⟩, hstack⟩ := h
    obtain ⟨L, hL, hrefines⟩ := htyping.moved hmovable
    refine ⟨⟨t'.stack, L⟩, ?_, rfl, hrefines⟩
    rw [RoleStep, hgives]
    exact ⟨below, ⟨ks, ks', rest, hks, hks', hmap ▸ hL⟩, hstack⟩

theorem TypeTable.Admits.move {T : TypeTable} {q : InsnId} {t : FrameType} (h : T.Admits q t) :
    (T.move E).Admits q (t.move E) := by
  obtain ⟨u, hu, hrefines⟩ := h
  refine ⟨u.move E, by rw [TypeTable.move, hu]; rfl, hrefines.stack, ?_⟩
  exact fun j κ hj => LocalKinds.move_mono hrefines.locals hj

/-- A typed code is typed with its slots moved. -/
theorem Typed.moved {D : InsnId → Role} {hs : List Handler} {ls : List (InsnId × Insn)} {T : TypeTable}
    (h : Typed (fun id => RoleStep (fun _ => false) (D id)) hs ls T)
    (hls : ∀ p ∈ ls, ∀ t, T p.1 = some t → p.2.Movable E)
    (hD : ∀ id, (D id).Slotless) :
    Typed (fun id => RoleStep (ofSlots E).isFirst (D id)) hs
      (ls.map fun p => (p.1, (ofSlots E).mapInsn p.2)) (T.move E) := by
  have hids : ∀ xs : List (InsnId × Insn),
      (xs.map fun p => (p.1, (ofSlots E).mapInsn p.2)).map Prod.fst = xs.map Prod.fst := by
    intro xs
    rw [List.map_map]
    rfl
  refine ⟨?_, ?_⟩
  · intro id t ht
    obtain ⟨u, hu, -⟩ := Option.map_eq_some_iff.mp ht
    rw [hids]
    exact h.support id u hu
  · intro pre id x post hsplit t ht
    obtain ⟨u, hu, rfl⟩ := Option.map_eq_some_iff.mp ht
    obtain ⟨pre', rest', hls', rfl, hrest⟩ := List.map_eq_append_iff.mp hsplit
    obtain ⟨⟨id', y⟩, post', rfl, hline, rfl⟩ := List.map_eq_cons_iff.mp hrest
    obtain ⟨rfl, rfl⟩ := Prod.mk.inj hline
    obtain ⟨u', hrule, htargets, hfalls, hcatch⟩ := h.line pre' id' y post' hls' u hu
    obtain ⟨t', hrule', hrefines⟩ := hrule.moved (hls (id', y) (by simp [hls']) u hu) (hD id')
    have hsame : ((ofSlots E).mapInsn y).targets = y.targets ∧ ((ofSlots E).mapInsn y).opcode = y.opcode := by
      cases y <;> exact ⟨rfl, rfl⟩
    refine ⟨t', hrule', ?_, ?_, ?_⟩
    · intro q hq
      rw [hsame.1] at hq
      exact (htargets q hq).move.of_refines hrefines
    · intro hfall
      rw [hsame.2] at hfall
      obtain ⟨p, rest, rfl, hp⟩ := hfalls hfall
      exact ⟨_, _, rfl, hp.move.of_refines hrefines⟩
    · intro h' hh' hstart hstop
      rw [hids] at hstart hstop
      obtain ⟨h₁, h₂⟩ := hcatch h' hh' hstart hstop
      refine ⟨h₁.move, ?_⟩
      exact h₂.move.of_refines ⟨rfl, hrefines.locals⟩

end

end CoordSplit
