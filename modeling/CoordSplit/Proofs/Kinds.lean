import CoordSplit.Proofs.FlowResults

/-!
# Kinds of values

A verifier tells five kinds of values apart, where the analysis looks at widths only. Most instructions take
and give values of fixed kinds (`Insn.signature?`), and `step_of_signature` is how the analysis executes them.
The operations that move values on the stack are described by the places from which the moved values come
(`Step.picks?`).
-/

set_option autoImplicit false

namespace CoordSplit

/-! ## Kinds -/

/-- What a verifier distinguishes. -/
inductive Kind where
  | int
  | long
  | float
  | double
  | ref
  deriving DecidableEq

/-- Whether values of the kind take two words. -/
def Kind.isWide : Kind → Bool
  | .long | .double => true
  | _ => false

/-- The kind of the values of a type; unusable slots and `void` have none. -/
def ValueType.kind? : ValueType → Option Kind
  | .prim .void | .top => none
  | .prim .long => some .long
  | .prim .float => some .float
  | .prim .double => some .double
  | .prim _ => some .int
  | _ => some .ref

/-- The kind of a value. -/
def Value.kind? (v : Value) : Option Kind := v.type.kind?

theorem ValueType.size_le_two (t : ValueType) : t.size ≤ 2 := by
  cases t with
  | prim p => cases p <;> decide
  | _ => exact Nat.le_succ 1

variable {t : ValueType} {κ : Kind}

theorem ValueType.size_eq_of_kind? (h : t.kind? = some κ) : t.size = if κ.isWide then 2 else 1 := by
  cases t with
  | prim p =>
    cases p <;> simp only [kind?, Option.some.injEq, reduceCtorEq] at h <;> subst h <;> rfl
  | top => simp [kind?] at h
  | _ =>
    simp only [kind?, Option.some.injEq] at h
    subst h
    rfl

theorem Value.size_eq_of_kind? {v : Value} (h : v.kind? = some κ) : v.size = if κ.isWide then 2 else 1 :=
  ValueType.size_eq_of_kind? h

theorem Value.isWide_eq_of_kind? {v : Value} (h : v.kind? = some κ) : v.isWide = κ.isWide := by
  rw [isWide, size_eq_of_kind? h]
  cases κ.isWide <;> rfl

theorem ValueType.isInt_iff_kind? (t : ValueType) : t.isInt = true ↔ t.kind? = some .int := by
  cases t with
  | prim p => cases p <;> simp [isInt, kind?]
  | _ => simp [isInt, kind?]

theorem ValueType.isRef_iff_kind? (t : ValueType) : t.isRef = true ↔ t.kind? = some .ref := by
  cases t with
  | prim p => cases p <;> simp [isRef, kind?]
  | _ => simp [isRef, kind?]

/-- Only int-like types and references share a kind with another type. -/
theorem ValueType.eq_of_kind? {u : ValueType} (ht : t.kind? = some κ) (hint : κ ≠ .int)
    (href : κ ≠ .ref) (hu : u.kind? = some κ) : t = u := by
  cases t with
  | prim p =>
    cases u with
    | prim q =>
      cases p <;> simp only [kind?, Option.some.injEq, reduceCtorEq] at ht <;> subst ht <;>
        first
        | exact absurd rfl hint
        | (cases q <;> simp [kind?] at hu; rfl)
    | top => simp [kind?] at hu
    | _ => exact absurd (Option.some.inj hu).symm href
  | top => simp [kind?] at ht
  | _ => exact absurd (Option.some.inj ht).symm href

/-- What joins two types of one kind has that kind. -/
theorem ValueType.kind?_merge {u : ValueType} (ht : t.kind? = some κ) (hu : u.kind? = some κ) :
    (t.merge u).kind? = some κ := by
  rw [merge]
  split
  · exact ht
  · next hne =>
    -- different types of one kind are int-like or references
    cases κ with
    | int =>
      rw [if_pos (by simp [(isInt_iff_kind? t).mpr ht, (isInt_iff_kind? u).mpr hu])]
      rfl
    | ref =>
      have hrefs := And.intro ((isRef_iff_kind? t).mpr ht) ((isRef_iff_kind? u).mpr hu)
      split
      · next hints =>
        simp only [Bool.and_eq_true, isInt_iff_kind?, ht] at hints
        exact absurd hints.1 (by decide)
      · split
        · exact hu
        · split
          · exact ht
          · rw [if_pos (by simp [hrefs])]
            rfl
    | _ =>
      exact absurd (eq_of_kind? ht (by decide) (by decide) hu) hne

/-! ## Signatures -/

/-- What an instruction takes from the stack, bottom first, and what it gives, if it does nothing else. -/
def Insn.signature? : Insn → Option PlainSignature
  | .label => some ⟨[], none⟩
  | .plain op => op.signature?
  | .push op value =>
    if op = .newarray then (arrayElementType? value).map fun t => ⟨[.int], some (.array t)⟩
    else some ⟨[], some .int⟩
  | .ldc c => c.type?.map fun t => ⟨[], some t⟩
  | .jump op _ => if op = .jsr then none else op.branchTakes?.map fun ts => ⟨ts, none⟩
  | .switch _ _ _ _ => some ⟨[.int], none⟩
  | .field op m =>
    match ValueType.parse m.desc, op with
    | .ok t, .getstatic => some ⟨[], some t⟩
    | .ok t, .putstatic => some ⟨[t], none⟩
    | .ok t, .getfield => some ⟨[.objectClass], some t⟩
    | .ok t, .putfield => some ⟨[.objectClass, t], none⟩
    | _, _ => none
  | .call op m _ =>
    match op.falls, MethodType.parse m.desc with
    | true, .ok t => some ⟨if op.hasReceiver then .objectClass :: t.params else t.params,
        if t.result = .void then none else some t.result⟩
    | _, _ => none
  | .type op name =>
    match op with
    | .new => some ⟨[], some (.object name)⟩
    | .anewarray => some ⟨[.int], some (.array (.ofClassName name))⟩
    | .checkcast => some ⟨[.objectClass], some (.ofClassName name)⟩
    | .instanceof => some ⟨[.objectClass], some .int⟩
    | _ => none
  | .multiArray desc dims =>
    match ValueType.parse desc, dims with
    | .ok t, .ofNat n => some ⟨List.replicate n .int, some t⟩
    | _, _ => none
  | .var _ _ | .iinc _ _ => none

/-- Whether an instruction calls a method. -/
def Insn.isCall : Insn → Bool
  | .call _ _ _ => true
  | _ => false

namespace Step

variable {ts : List ValueType} {vs : List Value}

/-- Values of the right widths are popped. -/
theorem popAll_append (h : vs.map Value.size = ts.map ValueType.size)
    (rest : List Value) : popAll ts (vs ++ rest) = .ok (vs, rest) := by
  induction ts generalizing vs with
  | nil =>
    rw [List.map_nil, List.map_eq_nil_iff] at h
    subst h
    rfl
  | cons t ts ih =>
    cases vs with
    | nil => simp at h
    | cons v vs =>
      simp only [List.map_cons, List.cons.injEq] at h
      simp only [popAll, List.cons_append, pop, h.1, ne_eq, not_true_eq_false, if_false, bind, Except.bind,
        ih h.2, pure, Except.pure]

theorem consume_append (h : vs.map Value.size = ts.map ValueType.size)
    (rest : List Value) : consume ts (vs.reverse ++ rest) = .ok (vs, rest) := by
  have hreverse : vs.reverse.map Value.size = ts.reverse.map ValueType.size := by
    rw [List.map_reverse, h, List.map_reverse]
  simp [consume, popAll_append hreverse, bind, Except.bind, pure, Except.pure]

theorem replace_append {f : Frame} {rest : List Value} (gives : Option Value)
    (hstack : f.stack = vs.reverse ++ rest) (h : vs.map Value.size = ts.map ValueType.size) :
    replace f ts gives = .ok ⟨⟨gives.toList ++ rest, f.locals⟩, vs⟩ := by
  rw [replace, hstack, consume_append h]
  cases gives <;> rfl

/-- Values of one word are popped. -/
theorem popInts_append {n : Nat} (hn : vs.length = n) (h : ∀ v ∈ vs, v.size = 1)
    (rest : List Value) : popInts n (vs ++ rest) = .ok (vs, rest) := by
  induction n generalizing vs with
  | zero =>
    rw [List.length_eq_zero_iff.mp hn]
    rfl
  | succ n ih =>
    cases vs with
    | nil => simp at hn
    | cons v vs =>
      have hv : v.size = ValueType.int.size := h v (by simp)
      simp only [popInts, List.cons_append, pop, hv, ne_eq, not_true_eq_false, if_false,
        ih (by simpa using hn) fun w hw => h w (by simp [hw])]

end Step

/-- An instruction with a signature can be executed where the stack has values of the widths that it takes.
It uses all that it takes, except for the length of a new array. -/
theorem step_of_signature {x : Insn} {g : PlainSignature} (hg : x.signature? = some g) {f : Frame}
    {vs rest : List Value} (hstack : f.stack = vs.reverse ++ rest)
    (hsizes : vs.map Value.size = g.takes.map ValueType.size) (id : Nat) :
    ∃ used, step id x f = .ok ⟨⟨(g.gives.map (Value.produced · id)).toList ++ rest, f.locals⟩, used⟩ ∧
      (used = vs ∨ ∃ value t, x = .push .newarray value ∧ g = ⟨[.int], some t⟩ ∧ used = []) := by
  have hreplace := Step.replace_append (g.gives.map (Value.produced · id)) hstack hsizes
  -- most instructions replace what they take by what they give
  have hlift : step id x f = Outcome.lift (Step.replace f g.takes (g.gives.map (Value.produced · id))) →
      ∃ used, step id x f = .ok ⟨⟨(g.gives.map (Value.produced · id)).toList ++ rest, f.locals⟩, used⟩ ∧
        (used = vs ∨ ∃ value t, x = .push .newarray value ∧ g = ⟨[.int], some t⟩ ∧ used = []) := by
    intro heq
    exact ⟨vs, by rw [heq, hreplace]; rfl, .inl rfl⟩
  have hempty : g.takes = [] → f.stack = rest ∧ vs = [] := by
    intro hnil
    rw [hnil, List.map_nil, List.map_eq_nil_iff] at hsizes
    rw [hstack, hsizes]
    exact ⟨rfl, rfl⟩
  cases x with
  | label =>
    simp only [Insn.signature?, Option.some.injEq] at hg
    subst hg
    obtain ⟨hrest, rfl⟩ := hempty rfl
    exact ⟨[], by simp [step, ← hrest], .inl rfl⟩
  | plain op =>
    simp only [Insn.signature?] at hg
    apply hlift
    rw [step, Step.plain]
    split
    · next hop => rcases hop with rfl | rfl <;> cases hg
    · split
      · next hop =>
        -- none of the operations that move values has a signature
        unfold Step.isShuffle at hop
        split at hop <;> first
          | cases hg
          | cases hop
      · rw [hg]
  | push op value =>
    simp only [Insn.signature?] at hg
    split at hg
    · next hop =>
      obtain ⟨t, ht, rfl⟩ := Option.map_eq_some_iff.mp hg
      obtain ⟨v, rfl⟩ : ∃ v, vs = [v] := by
        have hlen := congrArg List.length hsizes
        rw [List.length_map, List.length_map] at hlen
        exact List.length_eq_one_iff.mp hlen
      have hv : v.size = ValueType.int.size := by simpa using hsizes
      refine ⟨[], ?_, .inr ⟨value, _, by rw [hop], rfl, rfl⟩⟩
      simp [step, hop, hstack, Step.pop, hv, ht]
    · next hop =>
      obtain rfl := Option.some.inj hg
      obtain ⟨hrest, rfl⟩ := hempty rfl
      exact ⟨[], by simp [step, hop, hrest], .inl rfl⟩
  | ldc c =>
    simp only [Insn.signature?] at hg
    obtain ⟨t, ht, rfl⟩ := Option.map_eq_some_iff.mp hg
    obtain ⟨hrest, rfl⟩ := hempty rfl
    exact ⟨[], by simp [step, ht, hrest], .inl rfl⟩
  | jump op target =>
    simp only [Insn.signature?] at hg
    split at hg
    · simp at hg
    · next hop =>
      obtain ⟨ts, hts, rfl⟩ := Option.map_eq_some_iff.mp hg
      apply hlift
      simp [step, hop, hts]
  | switch op keys otherwise targets =>
    simp only [Insn.signature?, Option.some.injEq] at hg
    subst hg
    exact hlift rfl
  | field op m =>
    simp only [Insn.signature?] at hg
    apply hlift
    split at hg
    case h_5 => simp at hg
    all_goals
      next t ht =>
      obtain rfl := Option.some.inj hg
      simp [step, ht, Step.field]
  | call op m itf =>
    simp only [Insn.signature?] at hg
    split at hg
    · next t _ ht =>
      obtain rfl := Option.some.inj hg
      apply hlift
      simp only [step, ht]
      congr 2
      split <;> rfl
    · simp at hg
  | type op name =>
    simp only [Insn.signature?] at hg
    apply hlift
    split at hg
    case h_5 => simp at hg
    all_goals
      obtain rfl := Option.some.inj hg
      rfl
  | multiArray desc dims =>
    simp only [Insn.signature?] at hg
    split at hg
    · next t n ht =>
      obtain rfl := Option.some.inj hg
      have hlen : vs.reverse.length = n := by
        have := congrArg List.length hsizes
        simpa using this
      have hones : ∀ v ∈ vs.reverse, v.size = 1 := by
        intro v hv
        have : v.size ∈ (List.replicate n ValueType.int).map ValueType.size := by
          rw [← hsizes]
          exact List.mem_map_of_mem (List.mem_reverse.mp hv)
        obtain ⟨u, hu, hsize⟩ := List.mem_map.mp this
        rw [← hsize, List.eq_of_mem_replicate hu]
        rfl
      refine ⟨vs, ?_, .inl rfl⟩
      simp [step, ht, hstack, Step.popInts_append hlen hones]
    · simp at hg
  | var op slot => simp [Insn.signature?] at hg
  | iinc slot delta => simp [Insn.signature?] at hg

/-! ## Moving values on the stack -/

/-- Where the values on the stack come from after `swap` or one of the `dup` operations, given which of those
that it touches are wide, top first. -/
def Step.picks? : Opcode → List Bool → Option (List Nat)
  | .dup, [false] => some [0, 0]
  | .swap, [false, false] => some [1, 0]
  | .dupX1, [false, false] => some [0, 1, 0]
  | .dupX2, [false, true] => some [0, 1, 0]
  | .dupX2, [false, false, false] => some [0, 1, 2, 0]
  | .dup2, [true] => some [0, 0]
  | .dup2, [false, false] => some [0, 1, 0, 1]
  | .dup2X1, [true, false] => some [0, 1, 0]
  | .dup2X1, [false, false, false] => some [0, 1, 2, 0, 1]
  | .dup2X2, [true, true] => some [0, 1, 0]
  | .dup2X2, [true, false, false] => some [0, 1, 2, 0]
  | .dup2X2, [false, false, true] => some [0, 1, 2, 0, 1]
  | .dup2X2, [false, false, false, false] => some [0, 1, 2, 3, 0, 1]
  | _, _ => none

/-- The operation turns the values `top`, those that it touches, into `top'`. -/
def Step.Rearranges {α : Type} (wide : α → Bool) (op : Opcode) (top top' : List α) : Prop :=
  ∃ picks, picks? op (top.map wide) = some picks ∧ top' = picks.filterMap (top[·]?)

namespace Step

variable {α : Type} {op : Opcode}

/-- What is rearranged may be looked at through any map that keeps the widths. -/
theorem Rearranges.map {β : Type} {wide : α → Bool} {wide' : β → Bool} {top top' : List α}
    (h : Rearranges wide op top top') {f : α → β} (hf : ∀ a ∈ top, wide' (f a) = wide a) :
    Rearranges wide' op (top.map f) (top'.map f) := by
  obtain ⟨picks, hpicks, rfl⟩ := h
  refine ⟨picks, ?_, ?_⟩
  · rw [List.map_map, ← hpicks]
    exact congrArg _ (List.map_congr_left hf)
  · rw [List.map_filterMap]
    simp

/-- Values whose images can be rearranged can be rearranged themselves. -/
theorem Rearranges.of_map {β : Type} {wide : α → Bool} {wide' : β → Bool} {top : List α}
    {top' : List β} {f : α → β} (hf : ∀ a ∈ top, wide' (f a) = wide a) (h : Rearranges wide' op (top.map f) top') :
    ∃ vs, Rearranges wide op top vs ∧ vs.map f = top' := by
  obtain ⟨picks, hpicks, rfl⟩ := h
  refine ⟨picks.filterMap (top[·]?), ⟨picks, ?_, rfl⟩, ?_⟩
  · rw [← hpicks, List.map_map]
    exact congrArg _ (List.map_congr_left hf).symm
  · rw [List.map_filterMap]
    simp

/-- Nothing new comes up. -/
theorem Rearranges.mem {wide : α → Bool} {top top' : List α}
    (h : Rearranges wide op top top') {a : α} (ha : a ∈ top') : a ∈ top := by
  obtain ⟨picks, -, rfl⟩ := h
  obtain ⟨i, -, hi⟩ := List.mem_filterMap.mp ha
  exact List.mem_of_getElem? hi

theorem Rearranges.isShuffle {wide : α → Bool} {top top' : List α}
    (h : Rearranges wide op top top') : isShuffle op = true := by
  obtain ⟨picks, hpicks, -⟩ := h
  unfold picks? at hpicks
  split at hpicks <;> first
    | rfl
    | cases hpicks

/-- What can be rearranged is. -/
theorem shuffle_of_rearranges {top top' : List Value} (h : Rearranges Value.isWide op top top')
    (rest : List Value) : shuffle op (top ++ rest) = .ok (top' ++ rest) := by
  obtain ⟨picks, hpicks, rfl⟩ := h
  unfold picks? at hpicks
  split at hpicks
  all_goals
    first
    | cases hpicks
      done
    | next hwide =>
      obtain rfl := Option.some.inj hpicks
      simp only [List.map_eq_cons_iff, List.map_eq_nil_iff] at hwide
      first
      | obtain ⟨a, _, rfl, ha, rfl⟩ := hwide
        simp [shuffle, ha]
      | obtain ⟨a, _, rfl, ha, b, _, rfl, hb, rfl⟩ := hwide
        simp [shuffle, ha, hb]
      | obtain ⟨a, _, rfl, ha, b, _, rfl, hb, c, _, rfl, hc, rfl⟩ := hwide
        simp [shuffle, ha, hb, hc]
      | obtain ⟨a, _, rfl, ha, b, _, rfl, hb, c, _, rfl, hc, d, _, rfl, hd, rfl⟩ := hwide
        simp [shuffle, ha, hb, hc, hd]

end Step

end CoordSplit
