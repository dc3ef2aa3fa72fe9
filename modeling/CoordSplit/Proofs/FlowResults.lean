import CoordSplit.Proofs.IndexSets
import CoordSplit.Proofs.LinkedCode
import CoordSplit.Proofs.TransformStages
import CoordSplit.Proofs.ValueKeys

/-!
# What a successful analysis knows

Every reachable instruction of an analysed method was executed on the frame before it. In particular the
arguments of every reachable call are on the stack (`Analysis.callArgs_ok`), and every slot that a value is
stored to is a slot (`Analysis.storedTo_nonneg`).
-/

set_option autoImplicit false

namespace CoordSplit

/-! ## Taking values from the stack -/

namespace Step

variable {stack rest : List Value}

theorem pop_ok {t : ValueType} {v : Value} (h : pop t stack = .ok (v, rest)) : stack = v :: rest ∧ v.size = t.size := by
  cases stack with
  | nil => simp [pop] at h
  | cons w ws =>
    rw [pop] at h
    split at h
    · simp at h
    · next hsize =>
      obtain ⟨rfl, rfl⟩ := Prod.mk.inj (Except.ok.inj h)
      exact ⟨rfl, not_not.mp hsize⟩

/-- The values that are taken lie on top of the stack and have the widths that are asked for. -/
theorem popAll_ok {ts : List ValueType} {vs : List Value} (h : popAll ts stack = .ok (vs, rest)) :
    stack = vs ++ rest ∧ vs.map Value.size = ts.map ValueType.size := by
  induction ts generalizing stack vs with
  | nil =>
    simp only [popAll, Except.ok.injEq, Prod.mk.injEq] at h
    obtain ⟨rfl, rfl⟩ := h
    simp
  | cons t ts ih =>
    rw [popAll] at h
    obtain ⟨⟨v, stack'⟩, hv, h⟩ := except_bind_ok.mp h
    obtain ⟨⟨vs', rest'⟩, hvs, h⟩ := except_bind_ok.mp h
    obtain ⟨rfl, rfl⟩ := Prod.mk.inj (Except.ok.inj h)
    obtain ⟨rfl, hsize⟩ := pop_ok hv
    obtain ⟨rfl, hsizes⟩ := ih hvs
    simp [hsize, hsizes]

theorem consume_ok {ts : List ValueType} {vs : List Value} (h : consume ts stack = .ok (vs, rest)) :
    stack = vs.reverse ++ rest ∧ vs.map Value.size = ts.map ValueType.size := by
  rw [consume] at h
  obtain ⟨⟨ws, rest'⟩, hws, h⟩ := except_bind_ok.mp h
  obtain ⟨rfl, rfl⟩ := Prod.mk.inj (Except.ok.inj h)
  obtain ⟨rfl, hsizes⟩ := popAll_ok hws
  refine ⟨by simp, ?_⟩
  rw [List.map_reverse, hsizes, List.map_reverse, List.reverse_reverse]

theorem replace_ok {f : Frame} {takes : List ValueType} {gives : Option Value} {r : StepResult}
    (h : replace f takes gives = .ok r) :
    ∃ rest, f.stack = r.used.reverse ++ rest ∧ r.used.map Value.size = takes.map ValueType.size ∧
      r.frame = ⟨gives.toList ++ rest, f.locals⟩ := by
  rw [replace] at h
  obtain ⟨⟨used, rest⟩, hused, h⟩ := except_bind_ok.mp h
  obtain rfl := Except.ok.inj h
  obtain ⟨hstack, hsizes⟩ := consume_ok hused
  refine ⟨rest, hstack, hsizes, ?_⟩
  cases gives <;> rfl

end Step

variable {id : Nat} {op : Opcode} {f : Frame} {r : StepResult}

/-- A call that could be executed has a type, and its arguments are on the stack. -/
theorem step_call_ok {m : Member} {itf : Bool} (h : step id (.call op m itf) f = .ok r) :
    ∃ t rest, MethodType.parse m.desc = .ok t ∧ f.stack = r.used.reverse ++ rest ∧
      r.used.map Value.size =
        (if op.hasReceiver then .objectClass :: t.params else t.params).map ValueType.size ∧
      r.frame = ⟨(if t.result = .void then [] else [.produced t.result id]) ++ rest, f.locals⟩ := by
  rw [step] at h
  split at h
  · simp [Outcome.fail] at h
  · next t ht =>
    obtain ⟨rest, hstack, hsizes, hframe⟩ := Step.replace_ok (Outcome.lift_ok.mp h)
    refine ⟨t, rest, ht, hstack, hsizes, ?_⟩
    rw [hframe]
    split <;> rfl

/-- What a call used are its arguments. -/
theorem callArgs_of_step {m : Member} {itf : Bool}
    (h : step id (.call op m itf) f = .ok r) : f.callArgs op m = .ok r.used := by
  obtain ⟨t, rest, ht, hstack, hsizes, -⟩ := step_call_ok h
  have hlength : r.used.length = t.params.length + (if op.hasReceiver then 1 else 0) := by
    have := congrArg List.length hsizes
    rw [List.length_map, List.length_map] at this
    rw [this]
    split <;> simp
  simp only [Frame.callArgs, ht, hstack, ← hlength, List.length_append, List.length_reverse]
  rw [if_neg (by omega), List.take_append_of_le_length (by simp), List.take_of_length_le (by simp),
    List.reverse_reverse]

/-- A store that could be executed names a slot. -/
theorem step_store_nonneg {slot : Int} (h : step id (.var op slot) f = .ok r) (hop : op.isLoad = false) : 0 ≤ slot := by
  rw [step, Step.slotAccess] at h
  split at h
  · simp [Outcome.fail] at h
  · simp only [hop, Bool.false_eq_true, if_false] at h
    split at h
    · simp [Outcome.fail] at h
    · split at h
      · simp at h
      · exact Int.natCast_nonneg _

/-! ## Reachable instructions -/

namespace Code

/-- The ids of a listing were given out. -/
theorem nonneg_of_mem_listing {c : Code} {id : InsnId} {x : Insn} (h : (id, x) ∈ c.listing) :
    0 ≤ id ∧ c.get? id = some x := by
  obtain ⟨id', -, hid⟩ := List.mem_filterMap.mp h
  obtain ⟨y, hy, heq⟩ := Option.map_eq_some_iff.mp hid
  obtain ⟨rfl, rfl⟩ := Prod.mk.inj heq
  obtain ⟨n, hn, -⟩ := Option.map_eq_some_iff.mp hy
  exact ⟨(lt_size_of_node? hn).1, hy⟩

end Code

/-! ## The index of uses -/

namespace ConsumerIndex

variable {κ : Type} [DecidableEq κ]

/-- Entering a user under a key adds it to what is found there, and to nothing else. -/
theorem mem_find_enter (user : Nat) (key key' : κ) (table : List (κ × IndexSet)) (k : Nat) :
    k ∈ find key (enter user key' table) ↔ k ∈ find key table ∨ key' = key ∧ user = k := by
  induction table with
  | nil =>
    by_cases hkey : key' = key <;> simp [enter, find, hkey, IndexSet.singleton]
  | cons p table ih =>
    obtain ⟨key₀, users⟩ := p
    by_cases hfound : key₀ = key'
    · subst hfound
      by_cases hkey : key₀ = key <;> simp [enter, find, hkey]
    · by_cases hkey : key₀ = key
      · subst hkey
        simp [enter, find, hfound, Ne.symm hfound]
      · simpa [enter, find, hfound, hkey] using ih

/-- A user is entered under each of several keys. -/
theorem mem_find_foldl_enter (user : Nat) (key : κ) (keys : List κ) (table : List (κ × IndexSet)) (k : Nat) :
    k ∈ find key (keys.foldl (fun table p => enter user p table) table) ↔
      k ∈ find key table ∨ key ∈ keys ∧ user = k := by
  induction keys generalizing table with
  | nil => simp
  | cons key' keys ih =>
    rw [List.foldl_cons, ih, mem_find_enter, List.mem_cons, eq_comm]
    tauto

/-- What each use adds to an index is what all uses have added in the end. -/
theorem ofUses_iff {P : ConsumerIndex → Prop} {Q : Nat → Value → Prop} (hempty : ¬ P ⟨[], []⟩)
    (huse : ∀ user ix v, P (use user ix v) ↔ P ix ∨ Q user v) (uses : List (InsnId × List Value)) :
    P (ofUses uses) ↔ ∃ u ∈ uses, ∃ w ∈ u.2, Q u.1.toNat w := by
  have hvalues : ∀ user (vs : List Value) ix, P (vs.foldl (use user) ix) ↔ P ix ∨ ∃ w ∈ vs, Q user w := by
    intro user vs
    induction vs with
    | nil => simp
    | cons v vs ih =>
      intro ix
      rw [List.foldl_cons, ih, huse, or_assoc]
      simp
  have hall : ∀ (us : List (InsnId × List Value)) ix,
      P (us.foldl (fun ix u => u.2.foldl (use u.1.toNat) ix) ix) ↔ P ix ∨ ∃ u ∈ us, ∃ w ∈ u.2, Q u.1.toNat w := by
    intro us
    induction us with
    | nil => simp
    | cons u us ih =>
      intro ix
      rw [List.foldl_cons, ih, hvalues, or_assoc]
      simp
  rw [ofUses, hall, or_iff_right hempty]

/-- The users found under a text are those of the values with this key. -/
theorem mem_byValue_ofUses (uses : List (InsnId × List Value)) (key : Text) (k : Nat) :
    k ∈ find key (ofUses uses).byValue ↔ ∃ u ∈ uses, (∃ w ∈ u.2, w.key = key) ∧ u.1.toNat = k := by
  simp only [← exists_and_right, and_assoc]
  apply ofUses_iff (P := fun ix => k ∈ find key ix.byValue) (Q := fun user w => w.key = key ∧ user = k)
  · simp [find]
  · exact fun user ix v => mem_find_enter user key v.key ix.byValue k

/-- The users found under an instruction are those of the values that it may have produced. -/
theorem mem_byProducer_ofUses (uses : List (InsnId × List Value)) (q k : Nat) :
    k ∈ find q (ofUses uses).byProducer ↔ ∃ u ∈ uses, (∃ w ∈ u.2, q ∈ w.prod) ∧ u.1.toNat = k := by
  simp only [← exists_and_right, and_assoc]
  apply ofUses_iff (P := fun ix => k ∈ find q ix.byProducer) (Q := fun user w => q ∈ w.prod ∧ user = k)
  · simp [find]
  · intro user ix v
    rw [← IndexSet.mem_toList (s := v.prod)]
    exact mem_find_foldl_enter user q v.prod.toList ix.byProducer k

end ConsumerIndex

namespace Analysis

variable {owner : Text} {m : Method} {a : Analysis}

/-- The results are those of the frames. -/
theorem results_ok {ls : List ((InsnId × Insn) × Option Frame)} {rs : List (InsnId × Option StepResult)}
    (h : results ls = .ok rs) :
    (∀ p ∈ ls, ∀ f, p.2 = some f → ∃ r, step p.1.1.toNat p.1.2 f = .ok r ∧ (p.1.1, some r) ∈ rs) ∧
    ∀ q ∈ rs, ∀ r, q.2 = some r → ∃ x f, ((q.1, x), some f) ∈ ls ∧ step q.1.toNat x f = .ok r := by
  induction ls generalizing rs with
  | nil =>
    simp only [results, Except.ok.injEq] at h
    simp [← h]
  | cons p ls ih =>
    obtain ⟨⟨id, x⟩, f⟩ := p
    cases f with
    | none =>
      rw [results] at h
      obtain ⟨tail, htail, h⟩ := except_bind_ok.mp h
      obtain rfl := Except.ok.inj h
      obtain ⟨hall, hrs⟩ := ih htail
      refine ⟨?_, ?_⟩
      · rintro p hp f hf
        rcases List.mem_cons.mp hp with rfl | hp
        · simp at hf
        · obtain ⟨r, hr, hmem⟩ := hall p hp f hf
          exact ⟨r, hr, List.mem_cons_of_mem _ hmem⟩
      · rintro q hq r hr
        rcases List.mem_cons.mp hq with rfl | hq
        · simp at hr
        · obtain ⟨y, g, hmem, hstep⟩ := hrs q hq r hr
          exact ⟨y, g, List.mem_cons_of_mem _ hmem, hstep⟩
    | some f =>
      rw [results] at h
      obtain ⟨s, hs, h⟩ := except_bind_ok.mp h
      obtain ⟨tail, htail, h⟩ := except_bind_ok.mp h
      obtain rfl := Except.ok.inj h
      obtain ⟨hall, hrs⟩ := ih htail
      have hstep := Outcome.mapError_ok.mp hs
      refine ⟨?_, ?_⟩
      · rintro p hp g hg
        rcases List.mem_cons.mp hp with rfl | hp
        · obtain rfl := Option.some.inj hg
          exact ⟨s, hstep, List.mem_cons_self⟩
        · obtain ⟨r, hr, hmem⟩ := hall p hp g hg
          exact ⟨r, hr, List.mem_cons_of_mem _ hmem⟩
      · rintro q hq r hr
        rcases List.mem_cons.mp hq with rfl | hq
        · obtain rfl := Option.some.inj hr
          exact ⟨x, f, List.mem_cons_self, hstep⟩
        · obtain ⟨y, g, hmem, hstep⟩ := hrs q hq r hr
          exact ⟨y, g, List.mem_cons_of_mem _ hmem, hstep⟩

/-- The results are those of the instructions with a frame. -/
theorem mem_results_iff {ls : List ((InsnId × Insn) × Option Frame)} {rs : List (InsnId × Option StepResult)}
    (h : results ls = .ok rs) (id : InsnId) (r : StepResult) :
    (id, some r) ∈ rs ↔ ∃ x f, ((id, x), some f) ∈ ls ∧ step id.toNat x f = .ok r := by
  refine ⟨fun hmem => (results_ok h).2 _ hmem r rfl, ?_⟩
  rintro ⟨x, f, hmem, hstep⟩
  obtain ⟨r', hr', hmem'⟩ := (results_ok h).1 _ hmem f rfl
  obtain rfl := Except.ok.inj (hstep.symm.trans hr')
  exact hmem'

/-- The stages of a successful analysis. -/
theorem ofMethod_ok (h : ofMethod owner m = .ok a) :
    a.layout = Layout.ofMethod m ∧ (m.code.listing ≠ [] → ∃ params, m.params owner = .ok params) ∧
    ∃ rs, results a.framed = .ok rs ∧
      a.after = (rs.map fun r => r.2.map StepResult.frame).toArray ∧
      a.uses = rs.filterMap fun r => r.2.map fun s => (r.1, s.used) := by
  simp only [ofMethod] at h
  split at h
  · next hempty =>
    obtain rfl := Except.ok.inj h
    refine ⟨rfl, ?_, [], ?_, rfl, rfl⟩
    · intro hne
      simp only [Layout.ofMethod, List.isEmpty_toArray, List.isEmpty_iff] at hempty
      exact absurd hempty hne
    · simp [framed, results]
  · obtain ⟨params, hparams, h⟩ := except_bind_ok.mp h
    obtain ⟨s₀, -, h⟩ := except_bind_ok.mp h
    obtain ⟨s, -, h⟩ := except_bind_ok.mp h
    obtain ⟨rs, hrs, h⟩ := except_bind_ok.mp h
    obtain rfl := Except.ok.inj h
    exact ⟨rfl, fun _ => ⟨params, Outcome.ofExcept_ok.mp hparams⟩, rs, hrs, rfl, rfl⟩

variable {f : Frame} {id : InsnId}

theorem mem_framed_of_mem_reachable {line : InsnId × Insn} (h : (line, f) ∈ a.reachable) :
    (line, some f) ∈ a.framed := by
  obtain ⟨⟨line', g⟩, hmem, hmap⟩ := List.mem_filterMap.mp h
  obtain ⟨f', hf, heq⟩ := Option.map_eq_some_iff.mp hmap
  obtain ⟨rfl, rfl⟩ := Prod.mk.inj heq
  rw [← hf]
  exact hmem

section

variable (h : ofMethod owner m = .ok a)

include h

theorem mem_listing_of_mem_framed {line : InsnId × Insn} {f : Option Frame}
    (hmem : (line, f) ∈ a.framed) : line ∈ m.code.listing := by
  have := (List.of_mem_zip hmem).1
  rw [(ofMethod_ok h).1] at this
  simpa [Layout.ofMethod] using this

/-- The reachable lines stand in the order of the code. -/
theorem reachable_sublist : (a.reachable.map Prod.fst).Sublist m.code.listing := by
  have hsublist : ∀ (lines : List (InsnId × Insn)) (frames : List (Option Frame)),
      (((lines.zip frames).filterMap fun p => p.2.map fun f => (p.1, f)).map Prod.fst).Sublist lines := by
    intro lines
    induction lines with
    | nil => simp
    | cons line lines ih =>
      intro frames
      cases frames with
      | nil => simp
      | cons frame frames =>
        rw [List.zip_cons_cons]
        cases frame with
        | none => exact (ih frames).cons _
        | some f => exact (ih frames).cons_cons _
  have hlines : a.layout.lines.toList = m.code.listing := by simp [(ofMethod_ok h).1, Layout.ofMethod]
  rw [← hlines]
  apply hsublist

/-- A reachable instruction is in the code and was executed on its frame. -/
theorem step_of_mem_reachable {x : Insn} (hmem : ((id, x), f) ∈ a.reachable) :
    (id, x) ∈ m.code.listing ∧ ∃ r, step id.toNat x f = .ok r := by
  obtain ⟨-, -, rs, hrs, -⟩ := ofMethod_ok h
  have hframed := mem_framed_of_mem_reachable hmem
  obtain ⟨r, hr, -⟩ := (results_ok hrs).1 _ hframed f rfl
  exact ⟨mem_listing_of_mem_framed h hframed, r, hr⟩

/-- The arguments of every reachable call are on the stack. -/
theorem callArgs_ok {op : Opcode} {member : Member} {itf : Bool}
    (hmem : ((id, .call op member itf), f) ∈ a.reachable) : ∃ args, f.callArgs op member = .ok args := by
  obtain ⟨-, r, hr⟩ := step_of_mem_reachable h hmem
  exact ⟨r.used, callArgs_of_step hr⟩

/-- What uses a value was executed. -/
theorem step_of_mem_uses {used : List Value} (hmem : (id, used) ∈ a.uses) :
    ∃ x f r, (id, x) ∈ m.code.listing ∧ step id.toNat x f = .ok r ∧ r.used = used := by
  obtain ⟨-, -, rs, hrs, -, huses⟩ := ofMethod_ok h
  rw [huses] at hmem
  obtain ⟨⟨id', r⟩, hq, hmap⟩ := List.mem_filterMap.mp hmem
  obtain ⟨s, hs, heq⟩ := Option.map_eq_some_iff.mp hmap
  obtain ⟨rfl, rfl⟩ := Prod.mk.inj heq
  obtain ⟨x, f, hframed, hstep⟩ := (results_ok hrs).2 _ hq s hs
  exact ⟨x, f, s, mem_listing_of_mem_framed h hframed, hstep, rfl⟩

end

/-- Under the key of a value are found the users of the values that are equal to it: a key tells values apart. -/
theorem mem_consumers {v : Value} {k : Nat} :
    k ∈ a.consumers v ↔ ∃ u ∈ a.uses, u.2.any v.equal = true ∧ u.1.toNat = k := by
  rw [consumers, a.indexed, ConsumerIndex.mem_byValue_ofUses]
  simp only [List.any_eq_true, Value.equal_eq_true_iff, ← Value.key_eq_iff, eq_comm (a := v.key)]

/-- Under an instruction are found the users of the values that it may have produced. -/
theorem mem_consumersOf {k : Nat} :
    k ∈ a.consumersOf id ↔
      ∃ u ∈ a.uses, u.2.any (fun w => w.prod.contains id) = true ∧ u.1.toNat = k := by
  cases id with
  | ofNat q =>
    rw [consumersOf, a.indexed, ConsumerIndex.mem_byProducer_ofUses]
    simp only [List.any_eq_true]
    exact Iff.rfl
  | negSucc q => simp [consumersOf, IndexSet.contains]

/-- Values are stored to slots. -/
theorem storedTo_nonneg (h : ofMethod owner m = .ok a) {v : Value} {slot : Int}
    (hmem : slot ∈ a.storedTo v) : 0 ≤ slot := by
  obtain ⟨k, hk, hslot⟩ := List.mem_filterMap.mp hmem
  obtain ⟨⟨id, used⟩, hu, -, rfl⟩ := mem_consumers.mp (IndexSet.mem_toList.mp hk)
  obtain ⟨x, f, r, hx, hstep, -⟩ := step_of_mem_uses h hu
  obtain ⟨hid, hget⟩ := Code.nonneg_of_mem_listing hx
  have hinsn : a.insn? (id.toNat : Nat) = some x := by
    rw [insn?, (ofMethod_ok h).1, Int.toNat_of_nonneg hid]
    exact hget
  rw [hinsn] at hslot
  split at hslot
  · next heq =>
    obtain rfl := Option.some.inj hslot
    obtain rfl := Option.some.inj heq
    exact step_store_nonneg hstep (by decide)
  · simp at hslot

end Analysis

end CoordSplit
