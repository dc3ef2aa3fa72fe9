import CoordSplit.Proofs.FrameInvariants

/-!
# Where values on a stack come from

Whatever lies on a stack of an analysis was pushed by instructions of the method, at least one
(`Analysis.stack_made`). Values in slots need not be: the parameters come from outside.
-/

set_option autoImplicit false

namespace CoordSplit

/-! ## Producers -/

namespace Value

/-- The instructions that may have pushed a value. -/
def producers (v : Value) : List InsnId := v.prod.toList.map fun (p : Nat) => (p : InsnId)

variable {v w : Value} {p : InsnId}

theorem mem_producers : p ∈ v.producers ↔ v.prod.contains p = true := by
  rw [producers, List.mem_map, IndexSet.contains_iff]
  constructor
  · rintro ⟨k, hk, rfl⟩
    exact ⟨k, rfl, IndexSet.mem_toList.mp hk⟩
  · rintro ⟨k, rfl, hk⟩
    exact ⟨k, IndexSet.mem_toList.mpr hk, rfl⟩

theorem producers_nodup (v : Value) : v.producers.Nodup :=
  v.prod.toList_nodup.map Nat.cast_injective

theorem producers_mono (h : v ≤ w) : v.producers ⊆ w.producers := by
  intro p hp
  obtain ⟨k, rfl, hk⟩ := (IndexSet.contains_iff _ _).mp (mem_producers.mp hp)
  exact mem_producers.mpr (h.prod k hk)

theorem mem_producers_merge (hp : p ∈ (v.merge w).producers) : p ∈ v.producers ∨ p ∈ w.producers := by
  obtain ⟨k, rfl, hk⟩ := (IndexSet.contains_iff _ _).mp (mem_producers.mp hp)
  exact (((isJoin_merge v w).prod k).mp hk).imp mem_producers.mpr mem_producers.mpr

theorem producers_of_singleton {k : Nat} (h : v.prod = .singleton k) : v.producers = [(k : InsnId)] := by
  have hmem : ∀ p, p ∈ v.producers ↔ p = k := by
    intro p
    rw [mem_producers, h, IndexSet.contains_iff]
    constructor
    · rintro ⟨j, rfl, hj⟩
      rw [IndexSet.mem_singleton.mp hj]
    · rintro rfl
      exact ⟨k, rfl, IndexSet.mem_singleton.mpr rfl⟩
  exact List.perm_singleton.mp ((List.perm_ext_iff_of_nodup v.producers_nodup (List.nodup_singleton _)).mpr
    fun p => (hmem p).trans List.mem_singleton.symm)

@[simp] theorem producers_produced (t : ValueType) (k : Nat) : (produced t k).producers = [(k : InsnId)] :=
  producers_of_singleton rfl

end Value

/-- The instruction loads a slot. -/
def Insn.Loads (x : Insn) (k : Nat) : Prop := ∃ op, x = .var op k ∧ op.isLoad = true

variable {x : Insn} {f : Frame} {v : Value}

/-- Loading is all that an instruction which loads does. -/
theorem Insn.Loads.action {k : Nat} {act : Action} (h : x.Loads k) (hact : x.action? = some act) :
    ∃ op t, act = .load op t k := by
  obtain ⟨op, rfl, hop⟩ := h
  obtain ⟨t, -, rfl⟩ := Option.map_eq_some_iff.mp hact
  exact ⟨op, t, by rw [if_pos hop]⟩

/-- What loads a slot. -/
theorem Insn.loads_of_action {op : Opcode} {t : ValueType} {k : Nat}
    (h : x.action? = some (.load op t k)) : x.Loads k := by
  cases x with
  | var op' slot =>
    obtain ⟨u, -, hu⟩ := Option.map_eq_some_iff.mp h
    split at hu
    · next hop =>
      obtain ⟨-, -, rfl⟩ := Action.load.inj hu
      exact ⟨op', rfl, hop⟩
    · cases hu
  | plain op' =>
    rw [Insn.action?] at h
    split at h
    · cases h
    · split at h
      · cases h
      · simp at h
  | call op' m itf =>
    rw [Insn.action?] at h
    split at h <;> cases h
  | _ => simp [Insn.action?] at h

/-- What an instruction leaves on the stack was there before, or was pushed by it. What a load pushes comes from its
slot, and what anything else pushes comes from no slot. -/
theorem stack_of_step {id : Nat} {r : StepResult} (h : step id x f = .ok r)
    (hv : v ∈ r.frame.stack) : v ∈ f.stack ∨ v.prod = .singleton id ∧ ∀ k : Nat, k ∈ v.slots ↔ x.Loads k := by
  obtain ⟨act, hact, heffect⟩ := Action.of_step h
  cases heffect with
  | @exchange g counted taken rest hstack hsizes =>
    rcases List.mem_append.mp hv with hv | hv
    · obtain ⟨t, -, rfl⟩ := Option.map_eq_some_iff.mp (Option.mem_toList.mp hv)
      refine .inr ⟨rfl, fun k => ⟨fun hk => ?_, fun hload => ?_⟩⟩
      · simp [Value.produced] at hk
      · obtain ⟨op, u, hu⟩ := hload.action hact
        cases hu
    · exact .inl (by simp [hstack, hv])
  | drop hwords => exact .inl (by simp [Step.popWords_ok hwords, show v ∈ _ from hv])
  | move hstack hmove =>
    rcases List.mem_append.mp hv with hv | hv
    · exact .inl (by simp [hstack, hmove.mem hv])
    · exact .inl (by simp [hstack, hv])
  | @load op t k w ht hw hsize =>
    rcases List.mem_cons.mp hv with rfl | hv
    · refine .inr ⟨rfl, fun j => ⟨fun hj => ?_, fun hload => ?_⟩⟩
      · obtain rfl := IndexSet.mem_singleton.mp hj
        exact Insn.loads_of_action hact
      · obtain ⟨op', u, hu⟩ := hload.action hact
        obtain ⟨-, -, hk⟩ := Action.load.inj hu
        exact IndexSet.mem_singleton.mpr (by exact_mod_cast hk)
    · exact .inl hv
  | store _ hstack => exact .inl (by simp [hstack, show v ∈ _ from hv])
  | increment => exact .inl hv

theorem mem_stack_of_step {id : Nat} {r : StepResult} (h : step id x f = .ok r)
    (hv : v ∈ r.frame.stack) : v ∈ f.stack ∨ v.prod = .singleton id :=
  (stack_of_step h hv).imp_right And.left

/-! ## Stacks of an analysis -/

/-- A value was pushed by instructions of the method. -/
structure Method.Makes (m : Method) (v : Value) : Prop where
  nonempty : v.producers ≠ []
  mem : ∀ p ∈ v.producers, p ∈ m.code.listing.map Prod.fst

namespace Method.Makes

variable {m : Method} {v w : Value}

theorem merge (hv : m.Makes v) (hw : m.Makes w) : m.Makes (v.merge w) := by
  refine ⟨?_, fun p hp => (Value.mem_producers_merge hp).elim (hv.mem p) (hw.mem p)⟩
  obtain ⟨p, rest, hp⟩ := List.exists_cons_of_ne_nil hv.nonempty
  exact List.ne_nil_of_mem (Value.producers_mono (Value.le_merge_left v w) (by rw [hp]; exact List.mem_cons_self))

theorem of_singleton {id : InsnId} (hid : id ∈ m.code.listing.map Prod.fst) (hm : m.code.WellLinked)
    (hv : v.prod = .singleton id.toNat) : m.Makes v := by
  have hproducers := Value.producers_of_singleton hv
  rw [Int.toNat_of_nonneg (hm.id_lt hid).1] at hproducers
  refine ⟨by simp [hproducers], fun p hp => ?_⟩
  rw [hproducers, List.mem_singleton] at hp
  rwa [hp]

end Method.Makes

theorem Frame.mem_stack_of_merge {g merged : Frame} {changed : Bool} (h : f.merge g = (merged, .ok changed))
    (hv : v ∈ merged.stack) : ∃ u ∈ f.stack, ∃ w ∈ g.stack, v = u.merge w := by
  obtain ⟨hlength, grew, hstacks, -, -⟩ := Frame.merge_ok h
  rw [(Frame.mergeStacks_ok hstacks hlength).1] at hv
  obtain ⟨i, hi⟩ := List.getElem?_of_mem hv
  obtain ⟨u, w, hu, hw, rfl⟩ := List.getElem?_zipWith_eq_some.mp hi
  exact ⟨u, List.mem_of_getElem? hu, w, List.mem_of_getElem? hw, rfl⟩

/-- That stacks hold what instructions of the method pushed is kept by its analysis. -/
theorem Method.maintains_made (owner : Text) {m : Method} (hm : m.code.WellLinked) :
    m.Maintains owner fun f => ∀ v ∈ f.stack, m.Makes v := by
  refine ⟨?_, ?_, ?_, ?_⟩
  · intro params _ v hv
    simp [Analysis.entry] at hv
  · intro id x f r hmem hf hstep v hv
    rcases mem_stack_of_step hstep hv with hv | hv
    · exact hf v hv
    · exact .of_singleton (List.mem_map_of_mem hmem) hm hv
  · intro f g merged changed hf hg hmerge v hv
    obtain ⟨u, hu, w, hw, rfl⟩ := Frame.mem_stack_of_merge hmerge hv
    exact (hf u hu).merge (hg w hw)
  · intro e _ q f hq _ v hv
    obtain rfl := List.mem_singleton.mp hv
    have hmem := List.mem_of_getElem? ((Layout.position?_eq_some_iff hm _ _).mp hq)
    exact .of_singleton hmem hm rfl

/-- Whatever lies on a stack of an analysis was pushed by instructions of the method. -/
theorem Analysis.stack_made {owner : Text} {m : Method} {a : Analysis} (h : ofMethod owner m = .ok a)
    (hm : m.code.WellLinked) {id : InsnId} (hmem : ((id, x), f) ∈ a.reachable) (hv : v ∈ f.stack) : m.Makes v := by
  obtain ⟨p, hp⟩ := List.getElem?_of_mem (mem_framed_of_mem_reachable hmem)
  have hbefore : a.before[p]? = some (some f) := by
    simpa using (List.getElem?_zip_eq_some.mp hp).2
  exact (Method.maintains_made owner hm).before h hbefore v hv

end CoordSplit
