import CoordSplit.Proofs.TypingRules

/-!
# What a step can do

Every instruction does one of six things to a frame (`Action`): it exchanges what it takes from the stack for what
it gives, drops words, moves values on the stack, loads a slot, stores to one or increments one. A step that
succeeds has the effect of the instruction's action (`Action.of_step`), and what holds of all steps that succeed is
derived from the six effects.
-/

set_option autoImplicit false

namespace CoordSplit

namespace Step

variable {stack : List Value}

/-- Ints that are popped are on top. -/
theorem popInts_ok {n : Nat} {vs rest : List Value} (h : popInts n stack = .ok (vs, rest)) :
    stack = vs ++ rest ∧ vs.map Value.size = (List.replicate n ValueType.int).map ValueType.size := by
  induction n generalizing stack vs with
  | zero =>
    simp only [popInts, Except.ok.injEq, Prod.mk.injEq] at h
    obtain ⟨rfl, rfl⟩ := h
    simp
  | succ n ih =>
    rw [popInts] at h
    split at h
    · cases h
    · next v stack' hv =>
      split at h
      · cases h
      · next vs' rest' hvs =>
        obtain ⟨rfl, rfl⟩ := Prod.mk.inj (Except.ok.inj h)
        obtain ⟨rfl, hsize⟩ := pop_ok hv
        obtain ⟨rfl, hsizes⟩ := ih hvs
        simp [hsizes, hsize, List.replicate_succ]

/-- The values that are dropped lie on top of the stack. -/
theorem popWords_ok {n : Int} {vs rest : List Value} (h : popWords n stack = .ok (vs, rest)) : stack = vs ++ rest := by
  induction stack generalizing n vs with
  | nil =>
    rw [popWords] at h
    split at h
    · obtain ⟨rfl, rfl⟩ := Prod.mk.inj (Except.ok.inj h)
      rfl
    · split at h <;> cases h
  | cons v stack ih =>
    rw [popWords] at h
    split at h
    · obtain ⟨rfl, rfl⟩ := Prod.mk.inj (Except.ok.inj h)
      rfl
    · split at h
      · cases h
      · split at h
        · cases h
        · next vs' rest' hvs =>
          obtain ⟨rfl, rfl⟩ := Prod.mk.inj (Except.ok.inj h)
          rw [ih hvs, List.cons_append]

theorem rearranges_take {op : Opcode} {stack' : List Value} (k : Nat)
    (h : ∃ picks, picks? op ((stack.take k).map Value.isWide) = some picks ∧
      stack' = picks.filterMap ((stack.take k)[·]?) ++ stack.drop k) :
    ∃ top top' rest, stack = top ++ rest ∧ stack' = top' ++ rest ∧ Rearranges Value.isWide op top top' := by
  obtain ⟨picks, hpicks, hstack'⟩ := h
  exact ⟨stack.take k, _, stack.drop k, (List.take_append_drop k stack).symm, hstack', picks, hpicks, rfl⟩

/-- A stack that was shuffled was rearranged at its top. -/
theorem rearranges_of_shuffle {op : Opcode} {stack' : List Value} (h : shuffle op stack = .ok stack') :
    ∃ top top' rest, stack = top ++ rest ∧ stack' = top' ++ rest ∧ Rearranges Value.isWide op top top' := by
  cases stack with
  | nil => cases h
  | cons a rest =>
    simp only [shuffle] at h
    repeat' split at h
    all_goals
      first
      | cases h
        done
      | obtain rfl := Except.ok.inj h
        simp only [Bool.or_eq_true, Bool.and_eq_true, not_or, Bool.not_eq_true] at *
        -- at most four values are touched
        first
        | refine rearranges_take 1 ?_
          simp [picks?, *]
          done
        | refine rearranges_take 2 ?_
          simp [picks?, *]
          done
        | refine rearranges_take 3 ?_
          simp [picks?, *]
          done
        | refine rearranges_take 4 ?_
          simp [picks?, *]

end Step

/-- What an instruction does. -/
inductive Action where
  /-- Takes values from the stack and gives one; `counted` says whether it uses what it takes. -/
  | exchange (g : PlainSignature) (counted : Bool)
  | drop (words : Int)
  | move (op : Opcode)
  | load (op : Opcode) (t : ValueType) (slot : Int)
  | store (op : Opcode) (t : ValueType) (slot : Int)
  | increment (slot : Int)

/-- The action of an instruction, if it has one. -/
def Insn.action? : Insn → Option Action
  | .plain op =>
    if op = .pop ∨ op = .pop2 then some (.drop (if op = .pop then 1 else 2))
    else if Step.isShuffle op then some (.move op)
    else op.signature?.map (.exchange · true)
  | .var op slot => op.varType?.map fun t => if op.isLoad then .load op t slot else .store op t slot
  | .iinc slot _ => some (.increment slot)
  | .call op m _ =>
    match MethodType.parse m.desc with
    | .ok t => some (.exchange ⟨if op.hasReceiver then .objectClass :: t.params else t.params,
        if t.result = .void then none else some t.result⟩ true)
    | .error _ => none
  | .push op value => (Insn.push op value).signature?.map (.exchange · (op ≠ .newarray))
  | x => x.signature?.map (.exchange · true)

namespace Action

/-- The result of an action of the instruction `id` on a frame. -/
inductive Effect (id : Nat) (f : Frame) : Action → StepResult → Prop
  | exchange {g : PlainSignature} {counted : Bool} (taken : List Value) {rest : List Value}
      (hstack : f.stack = taken.reverse ++ rest) (hsizes : taken.map Value.size = g.takes.map ValueType.size) :
      Effect id f (.exchange g counted) ⟨⟨(g.gives.map (Value.produced · id)).toList ++ rest, f.locals⟩,
        if counted then taken else []⟩
  | drop {words : Int} {dropped rest : List Value} (hwords : Step.popWords words f.stack = .ok (dropped, rest)) :
      Effect id f (.drop words) ⟨⟨rest, f.locals⟩, dropped⟩
  | move {op : Opcode} {top top' rest : List Value} (hstack : f.stack = top ++ rest)
      (hmove : Step.Rearranges Value.isWide op top top') : Effect id f (.move op) ⟨⟨top' ++ rest, f.locals⟩, []⟩
  | load {op : Opcode} {t : ValueType} {k : Nat} {v : Value} (ht : op.varType? = some t) (hv : f.localAt k = some v)
      (hsize : v.size = t.size ∨ v.type = .top) :
      Effect id f (.load op t k) ⟨⟨⟨if op = .aload ∨ op = .iload then v.type else t, .singleton id, .singleton k⟩ ::
        f.stack, f.locals⟩, []⟩
  | store {op : Opcode} {t : ValueType} {k : Nat} {v : Value} {rest : List Value} (ht : op.varType? = some t)
      (hstack : f.stack = v :: rest) (hsize : v.size = t.size) :
      Effect id f (.store op t k) ⟨⟨rest, Step.setLocal f.locals k ⟨v.type, v.prod, .singleton k⟩⟩, [v]⟩
  | increment {k : Nat} {v : Value} (hv : f.localAt k = some v) (hint : v.type.isInt = true) :
      Effect id f (.increment k) ⟨⟨f.stack, f.locals.set k (some ⟨.int, .singleton id, .singleton k⟩)⟩, [v]⟩

variable {id : Nat} {f : Frame} {r : StepResult}

variable {op : Opcode}

theorem varType?_size_pos {t : ValueType} (h : op.varType? = some t) : 0 < t.size := by
  unfold Opcode.varType? at h
  split at h <;> cases h <;> decide

/-- Set slots are natural numbers. -/
theorem exists_nat_of_localAt {j : Int} {v : Value} (h : f.localAt j = some v) : ∃ k : Nat, j = k := by
  cases j with
  | ofNat k => exact ⟨k, rfl⟩
  | negSucc _ => cases h

theorem of_replace {x : Insn} {g : PlainSignature} (hx : x.action? = some (.exchange g true))
    (h : Step.replace f g.takes (g.gives.map (Value.produced · id)) = .ok r) :
    ∃ act, x.action? = some act ∧ act.Effect id f r := by
  obtain ⟨frame, used⟩ := r
  obtain ⟨rest, hstack, hsizes, hframe⟩ := Step.replace_ok h
  simp only at hframe
  subst hframe
  exact ⟨_, hx, .exchange used hstack hsizes⟩

/-- The action of an instruction without operands. -/
theorem of_plain (h : Step.plain id op f = .ok r) : ∃ act, (Insn.plain op).action? = some act ∧ act.Effect id f r := by
  rw [Step.plain] at h
  split at h
  · next hop =>
    obtain ⟨⟨dropped, rest⟩, hwords, h⟩ := except_bind_ok.mp h
    obtain rfl := Except.ok.inj h
    exact ⟨_, by rw [Insn.action?, if_pos hop], .drop hwords⟩
  · next hpop =>
    split at h
    · next hshuffle =>
      obtain ⟨stack, hstack, h⟩ := except_bind_ok.mp h
      obtain rfl := Except.ok.inj h
      obtain ⟨top, top', rest, hbefore, rfl, hmove⟩ := Step.rearranges_of_shuffle hstack
      exact ⟨_, by rw [Insn.action?, if_neg hpop, if_pos hshuffle], .move hbefore hmove⟩
    · next hshuffle =>
      split at h
      · cases h
      · next g hg => exact of_replace (by rw [Insn.action?, if_neg hpop, if_neg hshuffle, hg]; rfl) h

/-- The action of a load or a store. -/
theorem of_slotAccess {slot : Int} (h : Step.slotAccess id op slot f = .ok r) :
    ∃ act, (Insn.var op slot).action? = some act ∧ act.Effect id f r := by
  rw [Step.slotAccess] at h
  split at h
  · cases h
  · next t ht =>
    split at h
    · next hop =>
      split at h
      · cases h
      · next v hv =>
        split at h
        · cases h
        · next hsize =>
          obtain rfl := Except.ok.inj h
          obtain ⟨k, rfl⟩ := exists_nat_of_localAt hv
          exact ⟨.load op t k, by simp [Insn.action?, ht, hop], .load ht hv (by tauto)⟩
    · next hop =>
      split at h
      · cases h
      · next v rest hpop =>
        obtain ⟨hstack, hsize⟩ := Step.pop_ok hpop
        split at h
        · cases h
        · next k =>
          obtain rfl := Except.ok.inj h
          exact ⟨.store op t k, by simp [Insn.action?, ht, hop], .store ht hstack hsize⟩

/-- The action of a push. -/
theorem of_push {value : Int32} (h : step id (.push op value) f = .ok r) :
    ∃ act, (Insn.push op value).action? = some act ∧ act.Effect id f r := by
  rw [step] at h
  split at h
  · next hop =>
    subst hop
    split at h
    · cases h
    · next v rest hpop =>
      obtain ⟨hstack, hsize⟩ := Step.pop_ok hpop
      split at h
      · cases h
      · next t ht =>
        obtain rfl := Except.ok.inj h
        exact ⟨.exchange ⟨[.int], some (.array t)⟩ false, by simp [Insn.action?, Insn.signature?, ht],
          .exchange [v] hstack (by simp [hsize])⟩
  · next hop =>
    obtain rfl := Except.ok.inj h
    exact ⟨.exchange ⟨[], some .int⟩ true, by simp [Insn.action?, Insn.signature?, hop],
      .exchange [] rfl rfl⟩

/-- The effect of a field access. -/
theorem of_field {m : Member} (h : step id (.field op m) f = .ok r) :
    ∃ act, (Insn.field op m).action? = some act ∧ act.Effect id f r := by
  rw [step] at h
  split at h
  · cases h
  · next t ht =>
    have h' := Outcome.lift_ok.mp h
    unfold Step.field at h'
    split at h'
    · exact of_replace (g := ⟨[], some t⟩) (by simp [Insn.action?, Insn.signature?, ht]) h'
    · exact of_replace (g := ⟨[t], none⟩) (by simp [Insn.action?, Insn.signature?, ht]) h'
    · exact of_replace (g := ⟨[.objectClass], some t⟩) (by simp [Insn.action?, Insn.signature?, ht]) h'
    · exact of_replace (g := ⟨[.objectClass, t], none⟩) (by simp [Insn.action?, Insn.signature?, ht]) h'
    · cases h'

theorem of_call {m : Member} {itf : Bool} (h : step id (.call op m itf) f = .ok r) :
    ∃ act, (Insn.call op m itf).action? = some act ∧ act.Effect id f r := by
  rw [step] at h
  split at h
  · cases h
  · next t ht =>
    let g : PlainSignature := ⟨if op.hasReceiver then .objectClass :: t.params else t.params,
      if t.result = .void then none else some t.result⟩
    refine of_replace (g := g) (by simp only [Insn.action?, ht, g]) ?_
    rw [← Outcome.lift_ok.mp h]
    by_cases hvoid : t.result = .void <;> simp [g, hvoid]

/-- The action that makes an array of arrays. -/
theorem of_multiArray {desc : Text} {dims : Int} (h : step id (.multiArray desc dims) f = .ok r) :
    ∃ act, (Insn.multiArray desc dims).action? = some act ∧ act.Effect id f r := by
  rw [step] at h
  split at h
  · cases h
  · next t ht =>
    split at h
    · cases h
    · next n =>
      split at h
      · cases h
      · next used rest hpop =>
        obtain rfl := Except.ok.inj h
        obtain ⟨hstack, hsizes⟩ := Step.popInts_ok hpop
        refine ⟨.exchange ⟨List.replicate n .int, some t⟩ true, by simp [Insn.action?, Insn.signature?, ht],
          .exchange used.reverse (by rw [List.reverse_reverse, hstack]) ?_⟩
        rw [List.map_reverse, hsizes]
        simp

/-- A step that succeeds has the effect of the instruction's action. -/
theorem of_step {x : Insn} (h : step id x f = .ok r) : ∃ act, x.action? = some act ∧ act.Effect id f r := by
  cases x with
  | label =>
    obtain rfl := Except.ok.inj h
    exact ⟨.exchange ⟨[], none⟩ true, rfl, .exchange [] rfl rfl⟩
  | plain op => exact of_plain (Outcome.lift_ok.mp h)
  | push op value => exact of_push h
  | ldc c =>
    rw [step] at h
    split at h
    · cases h
    · next t ht =>
      obtain rfl := Except.ok.inj h
      exact ⟨.exchange ⟨[], some t⟩ true, by simp [Insn.action?, Insn.signature?, ht],
        .exchange [] rfl rfl⟩
  | var op slot => exact of_slotAccess h
  | iinc slot delta =>
    rw [step] at h
    split at h
    · cases h
    · next v hv =>
      split at h
      · next hint =>
        obtain rfl := Except.ok.inj h
        obtain ⟨k, rfl⟩ := exists_nat_of_localAt hv
        exact ⟨.increment k, rfl, .increment hv hint⟩
      · cases h
  | jump op target =>
    rw [step] at h
    split at h
    · cases h
    · next hop =>
      split at h
      · next takes htakes =>
        exact of_replace (g := ⟨takes, none⟩) (by simp [Insn.action?, Insn.signature?, hop, htakes])
          (Outcome.lift_ok.mp h)
      · cases h
  | switch op keys otherwise targets => exact of_replace (g := ⟨[.int], none⟩) rfl (Outcome.lift_ok.mp h)
  | field op m => exact of_field h
  | call op m itf => exact of_call h
  | type op name =>
    have h' := Outcome.lift_ok.mp h
    unfold Step.type at h'
    split at h'
    · exact of_replace (g := ⟨[], some (.object name)⟩) rfl h'
    · exact of_replace (g := ⟨[.int], some (.array (.ofClassName name))⟩) rfl h'
    · exact of_replace (g := ⟨[.objectClass], some (.ofClassName name)⟩) rfl h'
    · exact of_replace (g := ⟨[.objectClass], some .int⟩) rfl h'
    · cases h'
  | multiArray desc dims => exact of_multiArray h

end Action

end CoordSplit
