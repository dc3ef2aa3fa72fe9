import CoordSplit.Insn.Effect
import CoordSplit.Proofs.Descriptors
import CoordSplit.Proofs.StepEffects

/-!
# Stack effects of executed instructions

The table of stack effects counts words, abstract execution moves values. They agree: the stack effect of an
instruction is that of its action (`Insn.effect_of_action?`), and an action that can be executed exchanges the top of
the stack for values that take as many words as its stack effect says (`Action.Effect.effect?_eq`). So the depth of the
stack changes by the stack effect, whatever instruction was executed (`step_words_eq_effect`).
-/

set_option autoImplicit false

namespace CoordSplit

/-- The stack effect of an action. -/
def Action.effect? : Action → Option StackEffect
  | .exchange g _ => some ⟨((g.takes.map ValueType.size).sum : Nat), (g.gives.toList.map ValueType.size).sum⟩
  | .drop words => some ⟨words, 0⟩
  | .move op => op.plainEffect?
  | .load _ t _ => some ⟨0, t.size⟩
  | .store _ t _ => some ⟨t.size, 0⟩
  | .increment _ => some ⟨0, 0⟩

/-! ## The table -/

namespace ValueType

@[simp] theorem size_object (name : Text) : (object name).size = 1 := rfl

@[simp] theorem size_array (elem : ValueType) : (array elem).size = 1 := rfl

@[simp] theorem size_objectClass : objectClass.size = 1 := rfl

@[simp] theorem size_int : ValueType.int.size = 1 := rfl

@[simp] theorem size_void : ValueType.void.size = 0 := rfl

@[simp] theorem size_ofClassName (name : Text) : (ofClassName name).size = 1 := by
  rcases ofClassName_cases name with h | ⟨elem, h, -⟩ <;> rw [h] <;> rfl

end ValueType

theorem Opcode.plainEffect?_of_signature? {op : Opcode} {g : PlainSignature} (h : op.signature? = some g)
    (counted : Bool) : op.plainEffect? = (Action.exchange g counted).effect? := by
  cases op <;> cases h <;> rfl

namespace Insn

variable {op : Opcode} {act : Action} {e : StackEffect} {g : PlainSignature} {counted : Bool}

theorem effect_plain (h : (Insn.plain op).action? = some act)
    (he : act.effect? = some e) : (Insn.plain op).effect = .ok e := by
  suffices hplain : op.plainEffect? = act.effect? by
    simp only [effect, hplain, he]
  rw [action?] at h
  split at h
  · next hop =>
    obtain rfl := Option.some.inj h
    rcases hop with rfl | rfl <;> rfl
  · split at h
    · obtain rfl := Option.some.inj h
      rfl
    · obtain ⟨g, hg, rfl⟩ := Option.map_eq_some_iff.mp h
      exact Opcode.plainEffect?_of_signature? hg true

theorem effect_jump {takes : List ValueType} (h : op.branchTakes? = some takes) (target : InsnId) :
    (Insn.jump op target).effect = .ok ⟨((takes.map ValueType.size).sum : Nat), 0⟩ := by
  cases op <;> cases h <;> rfl

theorem effect_field {m : Member} (h : (Insn.field op m).signature? = some g)
    (he : (Action.exchange g counted).effect? = some e) : (Insn.field op m).effect = .ok e := by
  rw [← Option.some.inj he]
  unfold signature? at h
  simp only at h
  split at h
  all_goals
    first
    | cases h
      done
    | next t hparse =>
      obtain rfl := Option.some.inj h
      simp [effect, hparse]

theorem effect_call {m : Member} {itf : Bool}
    (h : (Insn.call op m itf).action? = some act) (he : act.effect? = some e) :
    (Insn.call op m itf).effect = .ok e := by
  rw [action?] at h
  split at h
  · next t hparse =>
    obtain rfl := Option.some.inj h
    rw [← Option.some.inj he, effect]
    simp only [hparse]
    cases op.hasReceiver <;> by_cases hvoid : t.result = .void <;>
      simp [hvoid, MethodType.size, add_comm]
  · cases h

theorem effect_type {name : Text} (h : (Insn.type op name).signature? = some g)
    (he : (Action.exchange g counted).effect? = some e) : (Insn.type op name).effect = .ok e := by
  rw [← Option.some.inj he]
  unfold signature? at h
  simp only at h
  split at h <;> cases h <;> simp [effect]

theorem effect_push {value : Int32} (h : (Insn.push op value).signature? = some g)
    (he : (Action.exchange g counted).effect? = some e) : (Insn.push op value).effect = .ok e := by
  rw [← Option.some.inj he]
  rw [signature?] at h
  split at h
  · next hop =>
    obtain ⟨t, -, rfl⟩ := Option.map_eq_some_iff.mp h
    simp [effect, hop]
  · next hop =>
    obtain rfl := Option.some.inj h
    simp [effect, hop]

theorem effect_var {slot : Int} (h : (Insn.var op slot).action? = some act)
    (he : act.effect? = some e) : (Insn.var op slot).effect = .ok e := by
  obtain ⟨t, ht, rfl⟩ := Option.map_eq_some_iff.mp h
  cases hload : op.isLoad with
  | true =>
    simp only [hload, if_true] at he
    simp only [effect, ht, hload, if_true, ← Option.some.inj he]
  | false =>
    simp only [hload, Bool.false_eq_true, if_false] at he
    simp only [effect, ht, hload, Bool.false_eq_true, if_false, ← Option.some.inj he]

/-- Whether the descriptor of a new array of several dimensions is that of an array type. -/
def isArrayTyped : Insn → Bool
  | .multiArray desc _ =>
    match ValueType.parse desc with
    | .ok (.array _) => true
    | _ => false
  | _ => true

theorem exists_array_of_isArrayTyped {desc : Text} {dims : Int}
    (h : (Insn.multiArray desc dims).isArrayTyped = true) : ∃ elem, ValueType.parse desc = .ok (.array elem) := by
  simp only [isArrayTyped] at h
  split at h
  · next elem helem => exact ⟨elem, helem⟩
  · cases h

theorem effect_multiArray {desc : Text} {dims : Int} {elem : ValueType} (helem : ValueType.parse desc = .ok (.array elem))
    (h : (Insn.multiArray desc dims).signature? = some g)
    (he : (Action.exchange g counted).effect? = some e) : (Insn.multiArray desc dims).effect = .ok e := by
  rw [← Option.some.inj he]
  unfold signature? at h
  simp only [helem] at h
  split at h
  · next t n ht =>
    obtain rfl := Except.ok.inj ht
    obtain rfl := Option.some.inj h
    simp [effect]
  · cases h

/-- The table gives an instruction the stack effect of its action. -/
theorem effect_of_action? {x : Insn} (hx : x.isArrayTyped = true) (h : x.action? = some act)
    (he : act.effect? = some e) : x.effect = .ok e := by
  cases x with
  | label =>
    obtain rfl := Option.some.inj h
    rw [← Option.some.inj he]
    rfl
  | plain op => exact effect_plain h he
  | push op value =>
    obtain ⟨g, hg, rfl⟩ := Option.map_eq_some_iff.mp h
    exact effect_push hg he
  | ldc c =>
    obtain ⟨g, hg, rfl⟩ := Option.map_eq_some_iff.mp h
    obtain ⟨t, ht, rfl⟩ := Option.map_eq_some_iff.mp hg
    simp [effect, ht, ← Option.some.inj he]
  | var op slot => exact effect_var h he
  | iinc slot delta =>
    obtain rfl := Option.some.inj h
    rw [← Option.some.inj he]
    rfl
  | jump op target =>
    obtain ⟨g, hg, rfl⟩ := Option.map_eq_some_iff.mp h
    rw [signature?] at hg
    split at hg
    · cases hg
    · obtain ⟨takes, htakes, rfl⟩ := Option.map_eq_some_iff.mp hg
      rw [effect_jump htakes, ← Option.some.inj he]
      rfl
  | switch op keys otherwise targets =>
    obtain rfl := Option.some.inj h
    rw [← Option.some.inj he]
    rfl
  | field op m =>
    obtain ⟨g, hg, rfl⟩ := Option.map_eq_some_iff.mp h
    exact effect_field hg he
  | call op m itf => exact effect_call h he
  | type op name =>
    obtain ⟨g, hg, rfl⟩ := Option.map_eq_some_iff.mp h
    exact effect_type hg he
  | multiArray desc dims =>
    obtain ⟨g, hg, rfl⟩ := Option.map_eq_some_iff.mp h
    obtain ⟨elem, helem⟩ := exists_array_of_isArrayTyped hx
    exact effect_multiArray helem hg he

end Insn

/-! ## Executed actions -/

theorem Value.size_eq_isWide {v : Value} (h : 0 < v.size) : v.size = if v.isWide then 2 else 1 := by
  have hle : v.size ≤ 2 := v.type.size_le_two
  by_cases hwide : v.size = 2
  · simp [isWide, hwide]
  · simp [isWide, hwide]
    omega

/-- The operations that move values have the stack effect of the values that they touch and of those that they
leave. -/
theorem Step.Rearranges.plainEffect?_eq {op : Opcode} {ws ws' : List Bool}
    (h : Step.Rearranges (fun wide => wide) op ws ws') :
    op.plainEffect? = some ⟨((ws.map fun wide => if wide then 2 else 1).sum : Nat),
      ((ws'.map fun wide => if wide then 2 else 1).sum : Nat)⟩ := by
  obtain ⟨picks, hpicks, rfl⟩ := h
  rw [List.map_id'] at hpicks
  unfold Step.picks? at hpicks
  split at hpicks <;> cases hpicks <;> rfl

/-- The values that are dropped take the words that are to be dropped. -/
theorem Step.sum_popWords {n : Int} {stack vs rest : List Value} (h : popWords n stack = .ok (vs, rest)) :
    ((vs.map Value.size).sum : Int) = n := by
  induction stack generalizing n vs with
  | nil =>
    rw [popWords] at h
    split at h
    · next hn =>
      obtain ⟨rfl, rfl⟩ := Prod.mk.inj (Except.ok.inj h)
      simp [hn]
    · split at h <;> cases h
  | cons v stack ih =>
    rw [popWords] at h
    split at h
    · next hn =>
      obtain ⟨rfl, rfl⟩ := Prod.mk.inj (Except.ok.inj h)
      simp [hn]
    · split at h
      · cases h
      · split at h
        · cases h
        · next vs' rest' hvs =>
          obtain ⟨rfl, rfl⟩ := Prod.mk.inj (Except.ok.inj h)
          have := ih hvs
          simp only [List.map_cons, List.sum_cons, Nat.cast_add]
          omega

namespace Action

variable {act : Action} {id : Nat} {f : Frame} {r : StepResult}

theorem size_loaded {op : Opcode} {t : ValueType} {v : Value} (ht : op.varType? = some t)
    (hsize : v.size = t.size ∨ v.type = .top) : (if op = .aload ∨ op = .iload then v.type else t).size = t.size := by
  split
  · next hop =>
    rcases hsize with hsize | htop
    · exact hsize
    · rw [htop]
      rcases hop with rfl | rfl <;> cases ht <;> rfl
  · rfl

/-- An action that is executed exchanges the top of the stack for values that take the words of its stack effect. -/
theorem Effect.effect?_eq (h : act.Effect id f r) (hpos : ∀ v ∈ f.stack, 0 < v.size) :
    ∃ top top' rest, f.stack = top ++ rest ∧ r.frame.stack = top' ++ rest ∧
      act.effect? = some ⟨((top.map Value.size).sum : Nat), ((top'.map Value.size).sum : Nat)⟩ := by
  cases h with
  | @exchange g counted taken rest hstack hsizes =>
    refine ⟨taken.reverse, _, rest, hstack, rfl, ?_⟩
    rw [List.map_reverse, List.sum_reverse, hsizes]
    cases hgives : g.gives <;> simp [effect?, hgives, Value.size, Value.produced]
  | @drop words dropped rest hwords =>
    refine ⟨dropped, [], rest, Step.popWords_ok hwords, rfl, ?_⟩
    simp [effect?, ← Step.sum_popWords hwords]
  | @move op top top' rest hstack hmove =>
    refine ⟨top, top', rest, hstack, rfl, ?_⟩
    have hwidths : ∀ vs : List Value, (∀ v ∈ vs, v ∈ top) →
        vs.map Value.size = (vs.map Value.isWide).map fun wide => if wide then 2 else 1 := by
      intro vs hvs
      rw [List.map_map]
      refine List.map_congr_left fun v hv => Value.size_eq_isWide (hpos v ?_)
      rw [hstack]
      exact List.mem_append_left _ (hvs v hv)
    have hwide : Step.Rearranges (fun wide => wide) op (top.map Value.isWide) (top'.map Value.isWide) :=
      hmove.map fun _ _ => rfl
    rw [effect?, hwide.plainEffect?_eq, hwidths top fun _ hv => hv, hwidths top' fun _ hv => hmove.mem hv]
  | @load op t k v ht hv hsize =>
    refine ⟨[], [_], f.stack, rfl, rfl, ?_⟩
    simp [effect?, Value.size, size_loaded ht hsize]
  | @store op t k v rest ht hstack hsize => exact ⟨[v], [], rest, hstack, rfl, by simp [effect?, hsize]⟩
  | increment hv hint => exact ⟨[], [], f.stack, rfl, rfl, rfl⟩

/-- In words: the stack is as deep as the stack effect asks for, and its depth changes by it. -/
theorem Effect.words_eq (h : act.Effect id f r) (hpos : ∀ v ∈ f.stack, 0 < v.size) :
    ∃ e, act.effect? = some e ∧ 0 ≤ e.pop ∧ e.pop ≤ f.words ∧
      (r.frame.words : Int) = f.words - e.pop + e.push := by
  obtain ⟨top, top', rest, hstack, hstack', he⟩ := h.effect?_eq hpos
  refine ⟨_, he, Int.natCast_nonneg _, ?_, ?_⟩ <;>
    simp only [Frame.words, hstack, hstack', List.map_append, List.sum_append, Nat.cast_add] <;> omega

end Action

/-! ## Executed instructions -/

/-- The table of stack effects and abstract execution agree. Let the values on a stack take one or two words each. An
instruction that can be executed has a stack effect: it takes as many words off the top of the stack as the effect says
and leaves as many in their place, and the values below stay as they are. So the stack is deep enough, and its depth
changes by the difference. -/
theorem step_words_eq_effect {id : Nat} {x : Insn} {f : Frame} {r : StepResult} (hx : x.isArrayTyped = true)
    (hsizes : ∀ v ∈ f.stack, v.size = 1 ∨ v.size = 2) (h : step id x f = .ok r) :
    ∃ e, x.effect = .ok e ∧ e.pop ≤ f.words ∧ (r.frame.words : Int) = f.words - e.pop + e.push ∧
      ∃ top top' rest, f.stack = top ++ rest ∧ r.frame.stack = top' ++ rest ∧
        ((top.map Value.size).sum : Nat) = e.pop ∧ ((top'.map Value.size).sum : Nat) = e.push := by
  have hpos : ∀ v ∈ f.stack, 0 < v.size := by
    intro v hv
    rcases hsizes v hv with hone | htwo <;> omega
  obtain ⟨act, hact, heffect⟩ := Action.of_step h
  obtain ⟨top, top', rest, hstack, hstack', he⟩ := heffect.effect?_eq hpos
  obtain ⟨e, he', -, hpop, hwords⟩ := heffect.words_eq hpos
  obtain rfl := Option.some.inj (he'.symm.trans he)
  exact ⟨_, Insn.effect_of_action? hx hact he, hpop, hwords, top, top', rest, hstack, hstack', rfl, rfl⟩

/-- A stack with a long on top of two ints and a reference. -/
def longOverInts : Frame :=
  ⟨[.produced .long 3, .produced .int 2, .produced .int 1, .produced .objectClass 0], []⟩

/-- The long is copied below the two ints: four words give way to six. -/
theorem step_words_eq_effect_longOverInts : ∃ r e, step 4 (.plain .dup2X2) longOverInts = .ok r ∧
    (Insn.plain .dup2X2).effect = .ok e ∧ e.pop = 4 ∧ e.push = 6 ∧ longOverInts.words = 5 ∧ r.frame.words = 7 ∧
    ∃ top' rest, r.frame.stack = top' ++ rest ∧ (top'.map Value.size).sum = 6 := by
  have hsizes : ∀ v ∈ longOverInts.stack, v.size = 1 ∨ v.size = 2 := by decide
  obtain ⟨r, hr⟩ : ∃ r, step 4 (.plain .dup2X2) longOverInts = .ok r := ⟨_, rfl⟩
  obtain ⟨e, he, -, hwords, -, top', rest, -, hstack, -, hpush⟩ :=
    step_words_eq_effect (x := .plain .dup2X2) rfl hsizes hr
  have heffect : (⟨4, 6⟩ : StackEffect) = e := Except.ok.inj he
  have hdepth : longOverInts.words = 5 := rfl
  simp only [← heffect, hdepth] at hwords hpush
  refine ⟨r, e, hr, he, by rw [← heffect], by rw [← heffect], hdepth, ?_, top', rest, hstack, ?_⟩ <;> omega

end CoordSplit
