import CoordSplit.Proofs.StepEffects
import CoordSplit.Proofs.ValueKeys

/-!
# Who uses a value

An instruction uses its operands, what it drops or stores, and the slot that it increments (`Insn.Uses`); what is
only moved on the stack is not used, and neither is a slot by being loaded.

The index of an analysis is exact but for one instruction (`Analysis.consumers_exact`): making an array of primitive
values takes the length of the array from the stack without being recorded as its user. Everything else that uses a
value at the fixed point is found under the value and under each of its producers, and nothing else is found there.
-/

set_option autoImplicit false

namespace CoordSplit

/-! ## What an instruction uses -/

/-- The values make up the given number of words on top of the stack, and no fewer of them do. -/
structure Step.TopWords (n : Int) (stack top : List Value) : Prop where
  onTop : top <+: stack
  words : ((top.map Value.size).sum : Int) = n
  least : ∀ pre, pre <+: top → pre ≠ top → ((pre.map Value.size).sum : Int) ≠ n

/-- An action takes a value into use. -/
inductive Action.Uses (f : Frame) : Action → Value → Prop
  | operand {g : PlainSignature} {counted : Bool} {v : Value} (hv : v ∈ f.stack.take g.takes.length) :
      Uses f (.exchange g counted) v
  | dropped {words : Int} {top : List Value} {v : Value} (htop : Step.TopWords words f.stack top) (hv : v ∈ top) :
      Uses f (.drop words) v
  | stored {op : Opcode} {t : ValueType} {slot : Int} {v : Value} {rest : List Value} (hstack : f.stack = v :: rest) :
      Uses f (.store op t slot) v
  | incremented {slot : Int} {v : Value} (hv : f.localAt slot = some v) : Uses f (.increment slot) v

/-- An instruction uses a value of the frame before it. -/
def Insn.Uses (x : Insn) (f : Frame) (v : Value) : Prop := ∃ act, x.action? = some act ∧ act.Uses f v

/-- Whether the instruction makes an array of primitive values. -/
def Insn.isPrimArray : Insn → Bool
  | .push op _ => op = .newarray
  | _ => false

/-- What is popped is the top of the stack, down to so many words. -/
theorem Step.topWords_of_popWords {n : Int} {stack dropped rest : List Value}
    (h : popWords n stack = .ok (dropped, rest)) : TopWords n stack dropped := by
  have hnil : ∀ stack, TopWords 0 stack [] :=
    fun stack => ⟨List.nil_prefix, rfl, fun pre hpre hne => absurd (List.prefix_nil.mp hpre) hne⟩
  induction stack generalizing n dropped with
  | nil =>
    rw [popWords] at h
    split at h
    · next hn =>
      obtain ⟨rfl, -⟩ := Prod.mk.inj (Except.ok.inj h)
      exact hn ▸ hnil []
    · split at h <;> cases h
  | cons v stack ih =>
    rw [popWords] at h
    split at h
    · next hn =>
      obtain ⟨rfl, -⟩ := Prod.mk.inj (Except.ok.inj h)
      exact hn ▸ hnil _
    · next hn =>
      split at h
      · cases h
      · split at h
        · cases h
        · next vs rest' hvs =>
          obtain ⟨rfl, rfl⟩ := Prod.mk.inj (Except.ok.inj h)
          obtain ⟨htop, hwords, hleast⟩ := ih hvs
          refine ⟨(List.prefix_cons_inj v).mpr htop, ?_, ?_⟩
          · rw [List.map_cons, List.sum_cons, Nat.cast_add, hwords]
            omega
          · intro pre hpre hne
            cases pre with
            | nil => simpa using Ne.symm hn
            | cons u pre =>
              obtain ⟨rfl, hpre'⟩ := List.cons_prefix_cons.mp hpre
              have := hleast pre hpre' fun heq => hne (by rw [heq])
              rw [List.map_cons, List.sum_cons, Nat.cast_add]
              omega

/-- The top of so many words is unique. -/
theorem Step.TopWords.unique {n : Int} {stack top top' : List Value} (h : TopWords n stack top)
    (h' : TopWords n stack top') : top = top' := by
  by_contra hne
  rcases List.prefix_or_prefix_of_prefix h.onTop h'.onTop with hpre | hpre
  · exact h'.least top hpre hne h.words
  · exact h.least top' hpre (Ne.symm hne) h'.words

/-- Only making an array of primitive values is not counted. -/
theorem Insn.isPrimArray_iff {x : Insn} {act : Action} (h : x.action? = some act) :
    x.isPrimArray = true ↔ ∃ g, act = .exchange g false := by
  cases x with
  | plain op =>
    rw [Insn.action?] at h
    split at h
    · obtain rfl := Option.some.inj h
      simp [isPrimArray]
    · split at h
      · obtain rfl := Option.some.inj h
        simp [isPrimArray]
      · obtain ⟨g, -, rfl⟩ := Option.map_eq_some_iff.mp h
        simp [isPrimArray]
  | var op slot =>
    obtain ⟨t, -, rfl⟩ := Option.map_eq_some_iff.mp h
    split <;> simp [isPrimArray]
  | iinc slot delta =>
    obtain rfl := Option.some.inj h
    simp [isPrimArray]
  | call op m itf =>
    rw [Insn.action?] at h
    split at h
    · obtain rfl := Option.some.inj h
      simp [isPrimArray]
    · cases h
  | _ =>
    simp only [Insn.action?, Option.map_eq_some_iff] at h
    obtain ⟨g, -, rfl⟩ := h
    simp [isPrimArray]

/-- What a step reports as used is what the instruction uses, unless it makes an array of primitive values. -/
theorem mem_used_iff {id : Nat} {x : Insn} {f : Frame} {r : StepResult} (h : step id x f = .ok r) (v : Value) :
    v ∈ r.used ↔ x.Uses f v ∧ x.isPrimArray = false := by
  obtain ⟨act, hact, heffect⟩ := Action.of_step h
  have huses : x.Uses f v ↔ act.Uses f v := by
    constructor
    · rintro ⟨act', hact', huse⟩
      obtain rfl := Option.some.inj (hact.symm.trans hact')
      exact huse
    · exact fun huse => ⟨act, hact, huse⟩
  have hprim := Insn.isPrimArray_iff hact
  rw [huses, ← Bool.not_eq_true, hprim]
  cases heffect with
  | @exchange g counted taken rest hstack hsizes =>
    have htake : f.stack.take g.takes.length = taken.reverse := by
      have hlength := congrArg List.length hsizes
      rw [List.length_map, List.length_map] at hlength
      rw [hstack, ← hlength, ← List.length_reverse, List.take_left]
    cases counted with
    | false => simp
    | true =>
      simp only [if_true, Action.exchange.injEq, Bool.true_eq_false, and_false, exists_false, not_false_eq_true, and_true]
      constructor
      · intro hv
        exact .operand (by rw [htake]; exact List.mem_reverse.mpr hv)
      · rintro (⟨hv⟩ | _)
        rw [htake] at hv
        exact List.mem_reverse.mp hv
  | drop hwords =>
    have htop := Step.topWords_of_popWords hwords
    simp only [reduceCtorEq, exists_false, not_false_eq_true, and_true]
    constructor
    · exact fun hv => .dropped htop hv
    · rintro (_ | ⟨htop', hv⟩)
      rw [htop.unique htop']
      exact hv
  | move hstack hmove =>
    simp only [List.not_mem_nil, reduceCtorEq, exists_false, not_false_eq_true, and_true, false_iff]
    rintro ⟨⟩
  | load ht hv hsize =>
    simp only [List.not_mem_nil, reduceCtorEq, exists_false, not_false_eq_true, and_true, false_iff]
    rintro ⟨⟩
  | store ht hstack hsize =>
    simp only [List.mem_singleton, reduceCtorEq, exists_false, not_false_eq_true, and_true]
    constructor
    · rintro rfl
      exact .stored hstack
    · rintro (_ | _ | ⟨hstack'⟩)
      rw [hstack] at hstack'
      exact (List.cons.inj hstack').1.symm
  | increment hv hint =>
    simp only [List.mem_singleton, reduceCtorEq, exists_false, not_false_eq_true, and_true]
    constructor
    · rintro rfl
      exact .incremented hv
    · rintro (_ | _ | _ | ⟨hv'⟩)
      exact (Option.some.inj (hv.symm.trans hv')).symm

/-! ## The index -/

namespace Analysis

variable {owner : Text} {m : Method} {a : Analysis}

/-- A line is reachable iff it has a frame. -/
theorem mem_reachable_iff {line : InsnId × Insn} {f : Frame} :
    (line, f) ∈ a.reachable ↔ (line, some f) ∈ a.framed := by
  refine ⟨mem_framed_of_mem_reachable, fun h => ?_⟩
  exact List.mem_filterMap.mpr ⟨_, h, rfl⟩

/-- The uses of values that satisfy a condition are those of the instructions that use one at the fixed point. -/
theorem exists_use_iff (h : ofMethod owner m = .ok a) (p : Value → Bool) (k : Nat) :
    (∃ u ∈ a.uses, u.2.any p = true ∧ u.1.toNat = k) ↔
      ∃ x f w, (((k : InsnId), x), f) ∈ a.reachable ∧ x.Uses f w ∧ x.isPrimArray = false ∧ p w = true := by
  obtain ⟨-, -, rs, hrs, -, huses⟩ := ofMethod_ok h
  constructor
  · rintro ⟨⟨id, used⟩, hu, hany, rfl⟩
    rw [huses] at hu
    obtain ⟨⟨id', r⟩, hq, hmap⟩ := List.mem_filterMap.mp hu
    obtain ⟨r, rfl, heq⟩ := Option.map_eq_some_iff.mp hmap
    obtain ⟨rfl, rfl⟩ := Prod.mk.inj heq
    obtain ⟨x, f, hframed, hstep⟩ := (mem_results_iff hrs id' r).mp hq
    obtain ⟨w, hw, hp⟩ := List.any_eq_true.mp hany
    obtain ⟨huse, hprim⟩ := (mem_used_iff hstep w).mp hw
    have hid : ((id'.toNat : Nat) : InsnId) = id' :=
      Int.toNat_of_nonneg (Code.nonneg_of_mem_listing (mem_listing_of_mem_framed h hframed)).1
    exact ⟨x, f, w, by rw [hid]; exact mem_reachable_iff.mpr hframed, huse, hprim, hp⟩
  · rintro ⟨x, f, w, hreach, huse, hprim, hp⟩
    obtain ⟨-, r, hstep⟩ := step_of_mem_reachable h hreach
    refine ⟨(k, r.used), ?_, List.any_eq_true.mpr ⟨w, (mem_used_iff hstep w).mpr ⟨huse, hprim⟩, hp⟩, rfl⟩
    rw [huses]
    exact List.mem_filterMap.mpr
      ⟨((k : InsnId), some r), (mem_results_iff hrs _ r).mpr ⟨x, f, mem_reachable_iff.mp hreach, hstep⟩, rfl⟩

/-- The index knows exactly the instructions that use a value at the fixed point, except that making an array of
primitive values is not found as a user of the length. The texts under which values are indexed tell them apart. -/
theorem consumers_exact (h : ofMethod owner m = .ok a) :
    (∀ v k, k ∈ a.consumers v ↔ ∃ x f w, (((k : InsnId), x), f) ∈ a.reachable ∧ x.Uses f w ∧
      x.isPrimArray = false ∧ v.Same w) ∧
    (∀ q k, k ∈ a.consumersOf q ↔ ∃ x f w, (((k : InsnId), x), f) ∈ a.reachable ∧ x.Uses f w ∧
      x.isPrimArray = false ∧ w.prod.contains q = true) ∧
    ∀ v w : Value, (v.key = w.key ↔ v.equal w = true) ∧ (v.equal w = true ↔ v.Same w) := by
  refine ⟨?_, ?_, ?_⟩
  · intro v k
    rw [mem_consumers, exists_use_iff h]
    simp only [Value.equal_eq_true_iff]
  · intro q k
    rw [mem_consumersOf, exists_use_iff h]
  · intro v w
    rw [Value.equal_eq_true_iff]
    exact ⟨Value.key_eq_iff, Iff.rfl⟩

/-- A method that makes an array of three ints. -/
def threeInts : Method :=
  ⟨"m", "()V", ⟨8⟩, .ofList [.plain .iconst3, .push .newarray 10, .plain .pop, .plain .returnVoid], [], [], 1, 0⟩

/-- The length of the array is used, and no user of it is found. -/
theorem consumers_exact_threeInts : ∃ a f v, ofMethod "C" threeInts = .ok a ∧
    ((1, .push .newarray 10), f) ∈ a.reachable ∧
    (Insn.push .newarray 10).Uses f v ∧ v.prod.contains 0 = true ∧ ¬ 1 ∈ a.consumersOf 0 := by
  have hmade : ((ofMethod "C" threeInts).toOption.map fun a => a.reachable.any fun l =>
      l.1 = (1, .push .newarray 10) && l.2.stack.head?.any fun v => v.prod.contains 0) = some true := by decide +kernel
  obtain ⟨a, ha, hmade⟩ := except_ok_of_map hmade
  simp only [List.any_eq_true, Bool.and_eq_true, decide_eq_true_eq] at hmade
  obtain ⟨⟨line, f⟩, hreach, hline, hany⟩ := hmade
  obtain rfl : line = (1, .push .newarray 10) := hline
  obtain ⟨v, hv, hprod⟩ := (Option.any_eq_true _ _).mp hany
  obtain ⟨rest, hstack⟩ := List.head?_eq_some_iff.mp hv
  have hlength : v ∈ f.stack.take 1 := by
    rw [show f.stack = v :: rest from hstack]
    exact List.mem_singleton.mpr rfl
  refine ⟨a, f, v, ha, hreach, ⟨.exchange ⟨[.int], some (.array .int)⟩ false, rfl, .operand hlength⟩, hprod, ?_⟩
  rw [(consumers_exact ha).2.1]
  rintro ⟨x, f', w, hreach', -, hnot, -⟩
  -- the only instruction with this id makes the array
  have honly : ∀ line ∈ threeInts.code.listing, line.1 = 1 → line.2.isPrimArray = true := by decide +kernel
  have hprim := honly _ (step_of_mem_reachable ha hreach').1 rfl
  rw [hnot] at hprim
  cases hprim

end Analysis

end CoordSplit
