import CoordSplit.Proofs.StackOrigins

/-!
# Slots and producers agree

What is known about a value names the slots that it may have been loaded from and the instructions that may have
produced it. On the stack the two tell the same story: the slots are those of the producers that are loads
(`Value.Traced`). In a slot they need not: a stored value keeps its producers, and its slots become the one that it is
stored in.

One half holds in every method (`Method.maintains_loaded`). The other half needs that handlers start with labels,
because the exception counts as produced by the instruction that the handler starts with (`Analysis.frames_traced`).
-/

set_option autoImplicit false

namespace CoordSplit

/-- The instruction `p` of a code loads slot `k`. -/
def Code.LoadsAt (code : Code) (p k : Nat) : Prop := ∃ x, code.get? p = some x ∧ x.Loads k

/-- A value was produced, and its slots are those of the producers that are loads. -/
structure Value.Traced (code : Code) (v : Value) : Prop where
  produced : v.prod.isEmpty = false
  slots : ∀ k : Nat, k ∈ v.slots ↔ ∃ p : Nat, p ∈ v.prod ∧ code.LoadsAt p k

/-- Values on the stack are traced to the loads that produced them, and values in slots belong to their slot. -/
structure Frame.Traced (code : Code) (f : Frame) : Prop where
  stack : ∀ v ∈ f.stack, v.Traced code
  locals : ∀ (j : Int) (v : Value), f.localAt j = some v → ∀ k : Nat, k ∈ v.slots ↔ (k : Int) = j

/-! ## Merging and executing -/

/-- What a slot holds after an instruction was there before, or was put there and belongs to the slot. -/
theorem localAt_of_step {id : Nat} {x : Insn} {f : Frame} {r : StepResult} (h : step id x f = .ok r) {j : Nat}
    {v : Value} (hv : r.frame.localAt j = some v) : f.localAt j = some v ∨ v.slots = .singleton j := by
  obtain ⟨act, -, heffect⟩ := Action.of_step h
  cases heffect with
  | exchange => exact .inl hv
  | drop => exact .inl hv
  | move => exact .inl hv
  | load => exact .inl hv
  | @store op t k w rest ht hstack hsize =>
    have hpos : 0 < Value.size ⟨w.type, w.prod, .singleton k⟩ := hsize ▸ Action.varType?_size_pos ht
    rw [Frame.localAt_natCast, Step.join_getElem?_setLocal _ _ _ hpos] at hv
    split at hv
    · next hj =>
      obtain rfl := Option.some.inj hv
      exact .inr (by rw [hj])
    · split at hv
      · cases hv
      · split at hv
        · cases hv
        · exact .inl hv
  | @increment k w hw hint =>
    rw [Frame.localAt_natCast, Step.join_getElem?_set (Frame.lt_length_of_localAt hw)] at hv
    split at hv
    · next hj =>
      obtain rfl := Option.some.inj hv
      exact .inr (by rw [hj])
    · exact .inl hv

/-! ## What an analysis keeps -/

namespace Method

variable (owner : Text) (m : Method)

/-- Every slot of a value on a stack is loaded by a producer of the value. -/
theorem maintains_loaded :
    m.Maintains owner fun f => ∀ v ∈ f.stack, ∀ k, k ∈ v.slots →
      ∃ (p : Nat) (x : Insn), p ∈ v.prod ∧ ((p : InsnId), x) ∈ m.code.listing ∧ x.Loads k := by
  refine ⟨?_, ?_, ?_, ?_⟩
  · intro params _ v hv
    simp [Analysis.entry] at hv
  · intro id x f r hmem hf hstep v hv k hk
    rcases stack_of_step hstep hv with hv | ⟨hprod, hslots⟩
    · exact hf v hv k hk
    · refine ⟨id.toNat, x, hprod ▸ IndexSet.mem_singleton.mpr rfl, ?_, (hslots k).mp hk⟩
      rwa [Int.toNat_of_nonneg (Code.nonneg_of_mem_listing hmem).1]
  · intro f g merged changed hf hg hmerge u hu k hk
    obtain ⟨v, hv, w, hw, rfl⟩ := Frame.mem_stack_of_merge hmerge hu
    rcases ((Value.isJoin_merge v w).slots k).mp hk with hk | hk
    · obtain ⟨p, x, hp, hload⟩ := hf v hv k hk
      exact ⟨p, x, ((Value.isJoin_merge v w).prod p).mpr (.inl hp), hload⟩
    · obtain ⟨p, x, hp, hload⟩ := hg w hw k hk
      exact ⟨p, x, ((Value.isJoin_merge v w).prod p).mpr (.inr hp), hload⟩
  · intro e _ q f _ _ v hv k hk
    obtain rfl := List.mem_singleton.mp hv
    simp [Value.produced] at hk

/-- If handlers start with labels, values on stacks were produced, and the slot of every load among the producers of
a value is a slot of the value. -/
theorem maintains_shown (hlabels : ∀ e ∈ m.handlers, m.code.get? e.handler = some .label) :
    m.Maintains owner fun f => ∀ v ∈ f.stack, (∃ p : Nat, p ∈ v.prod) ∧
      ∀ p k : Nat, p ∈ v.prod → m.code.LoadsAt p k → k ∈ v.slots := by
  refine ⟨?_, ?_, ?_, ?_⟩
  · intro params _ v hv
    simp [Analysis.entry] at hv
  · intro id x f r hmem hf hstep v hv
    rcases stack_of_step hstep hv with hv | ⟨hprod, hslots⟩
    · exact hf v hv
    · obtain ⟨hnonneg, hget⟩ := Code.nonneg_of_mem_listing hmem
      refine ⟨⟨id.toNat, hprod ▸ IndexSet.mem_singleton.mpr rfl⟩, ?_⟩
      rintro p k hp ⟨y, hy, hload⟩
      rw [hprod] at hp
      rw [← IndexSet.mem_singleton.mp hp, Int.toNat_of_nonneg hnonneg] at hy
      obtain rfl := Option.some.inj (hget.symm.trans hy)
      exact (hslots k).mpr hload
  · intro f g merged changed hf hg hmerge u hu
    obtain ⟨v, hv, w, hw, rfl⟩ := Frame.mem_stack_of_merge hmerge hu
    obtain ⟨⟨p, hp⟩, hvs⟩ := hf v hv
    refine ⟨⟨p, ((Value.isJoin_merge v w).prod p).mpr (.inl hp)⟩, fun p k hp hload => ?_⟩
    rw [(Value.isJoin_merge v w).slots]
    rcases ((Value.isJoin_merge v w).prod p).mp hp with hp | hp
    · exact .inl (hvs p k hp hload)
    · exact .inr ((hg w hw).2 p k hp hload)
  · intro e he q f _ _ v hv
    obtain rfl := List.mem_singleton.mp hv
    refine ⟨⟨e.handler.toNat, IndexSet.mem_singleton.mpr rfl⟩, ?_⟩
    rintro p k hp ⟨y, hy, op, rfl, -⟩
    -- the exception is produced by a label, and that loads nothing
    have hlabel := hlabels e he
    obtain ⟨n, hn, -⟩ := Option.map_eq_some_iff.mp hlabel
    rw [← IndexSet.mem_singleton.mp hp, Int.toNat_of_nonneg (Code.lt_size_of_node? hn).1, hlabel] at hy
    cases hy

/-- What a slot holds belongs to the slot. -/
theorem maintains_own :
    m.Maintains owner fun f => ∀ (j : Nat) (v : Value), f.localAt j = some v → ∀ k : Nat, k ∈ v.slots ↔ k = j := by
  have hsingleton : ∀ (j k : Nat), k ∈ IndexSet.singleton j ↔ k = j :=
    fun j k => IndexSet.mem_singleton.trans eq_comm
  refine ⟨?_, ?_, ?_, ?_⟩
  · intro params _ j v hv
    simp only [Analysis.entry, Frame.localAt_natCast, List.getElem?_map, List.getElem?_zipIdx] at hv
    cases ht : params[j]? with
    | none => simp [ht] at hv
    | some t =>
      simp only [ht, Option.map_some, Option.join_some, Nat.zero_add] at hv
      split at hv
      · cases hv
      · obtain rfl := Option.some.inj hv
        exact hsingleton j
  · intro id x f r _ hf hstep j v hv
    rcases localAt_of_step hstep hv with hv | hv
    · exact hf j v hv
    · rw [hv]
      exact hsingleton j
  · intro f g merged changed hf hg hmerge j u hu k
    rcases Frame.localAt_of_merge hmerge hu with hu | hu | ⟨v, w, hv, hw, rfl⟩
    · exact hf j u hu k
    · exact hg j u hu k
    · rw [(Value.isJoin_merge v w).slots, hf j v hv, hg j w hw, or_self]
  · intro e _ q f _ hf
    exact hf

end Method

/-! ## Frames of an analysis -/

namespace Analysis

variable {owner : Text} {m : Method} {a : Analysis} {p : Nat} {f : Frame}

/-- In every frame of an analysis, before and after instructions, slots and producers agree, if handlers start with
labels. So a value on a stack may come from an expanded slot iff a producer of it loads one. -/
theorem frames_traced (h : ofMethod owner m = .ok a) (hlabels : ∀ e ∈ m.handlers, m.code.get? e.handler = some .label)
    (hf : a.before[p]? = some (some f) ∨ a.after[p]? = some (some f)) :
    f.Traced m.code ∧ ∀ v ∈ f.stack, ∀ expanded : IndexSet,
      v.isPacked expanded = true ↔ ∃ q k : Nat, q ∈ v.prod ∧ m.code.LoadsAt q k ∧ k ∈ expanded := by
  have hall : ∀ {P : Frame → Prop}, m.Maintains owner P → P f := fun hP => hf.elim (hP.before h) (hP.after h)
  have hstack : ∀ v ∈ f.stack, v.Traced m.code := by
    intro v hv
    obtain ⟨⟨q, hq⟩, hshown⟩ := hall (m.maintains_shown owner hlabels) v hv
    refine ⟨?_, fun k => ⟨fun hk => ?_, ?_⟩⟩
    · rw [← Bool.not_eq_true, IndexSet.isEmpty_iff]
      exact List.ne_nil_of_mem (IndexSet.mem_toList.mpr hq)
    · obtain ⟨q, x, hq, hx, hload⟩ := hall (m.maintains_loaded owner) v hv k hk
      exact ⟨q, hq, x, (Code.nonneg_of_mem_listing hx).2, hload⟩
    · rintro ⟨q, hq, hload⟩
      exact hshown q k hq hload
  refine ⟨⟨hstack, ?_⟩, ?_⟩
  · intro j v hv k
    obtain ⟨i, rfl⟩ := Action.exists_nat_of_localAt hv
    rw [hall (m.maintains_own owner) i v hv, Int.natCast_inj]
  · intro v hv expanded
    rw [Value.isPacked, IndexSet.intersects_iff]
    constructor
    · rintro ⟨k, hk, hexpanded⟩
      obtain ⟨q, hq, hload⟩ := ((hstack v hv).slots k).mp hk
      exact ⟨q, k, hq, hload, hexpanded⟩
    · rintro ⟨q, k, hq, hload, hexpanded⟩
      exact ⟨k, ((hstack v hv).slots k).mpr ⟨q, hq, hload⟩, hexpanded⟩

/-- A method that stores what it loaded from one of two slots into one of them, counts, and may be interrupted. -/
def crossing : Method :=
  ⟨"m", "(IJJ)V", ⟨8⟩, .ofList [.label, .var .iload 0, .jump .ifeq 5, .var .lload 1, .jump .goto 7, .label,
    .var .lload 3, .label, .var .lstore 1, .iinc 0 1, .var .lload 1, .plain .pop2, .plain .returnVoid, .label,
    .plain .pop, .plain .returnVoid], [], [⟨"", 0, 13, 13⟩], 2, 5⟩

/-- The value that is stored comes from both slots, and both loads are its producers. -/
theorem frames_traced_crossing : ∃ a f v, ofMethod "C" crossing = .ok a ∧
    (∀ e ∈ crossing.handlers, crossing.code.get? e.handler = some .label) ∧ a.before[8]? = some (some f) ∧
    v ∈ f.stack ∧ v.prod.toList = [3, 6] ∧ f.Traced crossing.code ∧
    ∃ q k, q ∈ v.prod ∧ crossing.code.LoadsAt q k ∧ k ∈ IndexSet.singleton 3 := by
  have hlabels : ∀ e ∈ crossing.handlers, crossing.code.get? e.handler = some .label := by decide +kernel
  have hmeet : ((ofMethod "C" crossing).toOption.map fun a => a.before[8]?.any fun o => o.any fun f =>
      f.stack.any fun v => v.prod.toList = [3, 6] && v.isPacked (.singleton 3)) = some true := by decide +kernel
  obtain ⟨a, ha, hmeet⟩ := except_ok_of_map hmeet
  simp only [Option.any_eq_true, List.any_eq_true, Bool.and_eq_true, decide_eq_true_eq] at hmeet
  obtain ⟨o, hbefore, f, rfl, v, hv, hprod, hpacked⟩ := hmeet
  obtain ⟨htraced, hpacks⟩ := frames_traced ha hlabels (.inl hbefore)
  exact ⟨a, f, v, ha, hlabels, hbefore, hv, hprod, htraced, (hpacks v hv (.singleton 3)).mp hpacked⟩

end Analysis

end CoordSplit
