import CoordSplit.Proofs.ParameterLayout
import CoordSplit.Proofs.ProducerTyping
import CoordSplit.Proofs.StackOrigins

/-!
# What converting the calls changes

A run that converts the calls of a code makes a list of edits (`CallRun.edits`): a call, the values that it takes
apart, and what becomes of it. A producer serves one edit only, since the call of the edit is its only user, and after
it has been changed it is no call that could be converted. So the edits of a run do not get in each other's way
(`CallRun.edits_sound`), except that a call which was converted may come to pack what it takes, and may then be the
producer of a later edit.
-/

set_option autoImplicit false

namespace CoordSplit

/-- A set with one member contains nothing else. -/
theorem IndexSet.eq_of_size_eq_one {s : IndexSet} (hs : s.size = 1) {i j : Int} (hi : s.contains i = true)
    (hj : s.contains j = true) : i = j := by
  obtain ⟨k, hk⟩ := List.length_eq_one_iff.mp (s.size_eq_length ▸ hs)
  have honly : ∀ n : Int, s.contains n = true → n = k := by
    intro n hn
    obtain ⟨n', rfl, hn'⟩ := (contains_iff s n).mp hn
    have hmem : n' ∈ s.toList := mem_toList.mpr hn'
    rw [hk, List.mem_singleton] at hmem
    rw [hmem]
  rw [honly i hi, honly j hj]

/-- The call is the only instruction that uses what `p` produced. -/
def Analysis.OnlyUser (a : Analysis) (call p : InsnId) : Prop :=
  (a.consumersOf p).size = 1 ∧ (a.consumersOf p).contains call = true

/-- There is one such call. -/
theorem Analysis.OnlyUser.eq {a : Analysis} {i j p : InsnId} (hi : a.OnlyUser i p) (hj : a.OnlyUser j p) : i = j :=
  IndexSet.eq_of_size_eq_one hi.1 hi.2 hj.2

/-- What is split is a long parameter. -/
theorem MethodType.long_of_split {t g : MethodType} {indices : List Int} (h : t.split indices = .ok g) {i : Int}
    (hi : i ∈ indices) : ∃ k : Nat, i = k ∧ t.params[k]? = some .long := by
  obtain ⟨_, hforM, -⟩ := except_bind_ok.mp h
  have hcheck := ExpansionContext.forM_ok hforM i hi
  cases i with
  | negSucc k => cases hcheck
  | ofNat k =>
    refine ⟨k, rfl, ?_⟩
    rw [MethodType.checkSplit] at hcheck
    split at hcheck
    · cases hcheck
    · next t' ht' =>
      split at hcheck
      · next hlong => rw [ht', hlong]
      · cases hcheck

/-- A parameter that is split gives three. -/
theorem MethodType.length_splitParams {indices : List Int} {ts : List ValueType} {i k : Nat} (hk : k < ts.length)
    (hmem : ((i + k : Nat) : Int) ∈ indices) : 3 ≤ (splitParams indices i ts).length := by
  induction ts generalizing i k with
  | nil => simp at hk
  | cons t ts ih =>
    rw [splitParams]
    cases k with
    | zero =>
      rw [Nat.add_zero] at hmem
      rw [if_pos (List.contains_iff_mem.mpr hmem)]
      simp only [List.length_cons]
      omega
    | succ k =>
      have hrest : 3 ≤ (splitParams indices (i + 1) ts).length := by
        apply ih (k := k) (Nat.lt_of_succ_lt_succ hk)
        rwa [show i + 1 + k = i + (k + 1) by omega]
      split
      · simp only [List.length_cons]
        omega
      · simp only [List.length_cons]
        omega

theorem Entry.Shaped.returnsPacked_of_isProducer {e : Entry} (h : e.Shaped) (he : e.isProducer = true) :
    e.returnsPacked = true := by
  rw [Entry.isProducer, Bool.or_eq_true] at he
  rcases he with hpack | haxes
  · exact (h.pack hpack).1
  · obtain ⟨axes, ha⟩ := Option.isSome_iff_exists.mp haxes
    exact (h.axes axes ha).1

/-! ## Edits -/

/-- A call that is converted. -/
structure CallEdit where
  call : InsnId
  /-- The part that the call takes of a coordinate, or none if it takes all three. -/
  part : Option Axis
  /-- What it finds on the stack. -/
  args : List Value
  /-- The coordinates among that. -/
  taken : List Value
  /-- What becomes of the call; a label, which does nothing, if it is taken out. -/
  reads : Insn

variable {c : ExpansionContext} {a : Analysis} {expanded : IndexSet} {code d : Code} {id : InsnId} {op : Opcode}
  {m : Member} {itf : Bool} {f : Frame} {e : CallEdit} {es : List CallEdit}

namespace CallEdit

/-- The instructions that produced the coordinates of an edit. -/
def producers (e : CallEdit) : List InsnId := e.taken.flatMap Value.producers

/-- What a producer is to push according to the edits, if it is to be changed. -/
def partOf (es : List CallEdit) (id : InsnId) : Option (Option Axis) :=
  (es.find? fun e => decide (id ∈ e.producers)).map part

/-- What an instruction is to be read as according to the edits, if it is converted. -/
def readingOf (es : List CallEdit) (id : InsnId) : Option Insn :=
  (es.find? fun e => decide (e.call = id)).map reads

/-- The role of an instruction before the edits are made. -/
def roleOf (es : List CallEdit) (id : InsnId) : Role := ⟨readingOf es id, partOf es id⟩

theorem partOf_cons_of_mem (h : id ∈ e.producers) : partOf (e :: es) id = some e.part := by
  simp [partOf, h]

theorem partOf_cons_of_not_mem (h : id ∉ e.producers) : partOf (e :: es) id = partOf es id := by
  simp [partOf, h]

theorem partOf_eq_none (h : ∀ e ∈ es, id ∉ e.producers) : partOf es id = none := by
  simpa [partOf] using h

theorem exists_of_partOf {part : Option Axis} (h : partOf es id = some part) :
    ∃ e ∈ es, id ∈ e.producers ∧ e.part = part := by
  obtain ⟨e, he, hpart⟩ := Option.map_eq_some_iff.mp h
  exact ⟨e, List.mem_of_find?_eq_some he, by simpa using List.find?_some he, hpart⟩

theorem readingOf_cons_self : readingOf (e :: es) e.call = some e.reads := by
  simp [readingOf]

theorem readingOf_cons_of_ne (h : id ≠ e.call) : readingOf (e :: es) id = readingOf es id := by
  simp [readingOf, Ne.symm h]

theorem readingOf_eq_none (h : ∀ e ∈ es, e.call ≠ id) : readingOf es id = none := by
  simpa [readingOf] using h

theorem exists_of_readingOf {x : Insn} (h : readingOf es id = some x) : ∃ e ∈ es, e.call = id ∧ e.reads = x := by
  obtain ⟨e, he, hreads⟩ := Option.map_eq_some_iff.mp h
  exact ⟨e, List.mem_of_find?_eq_some he, by simpa using List.find?_some he, hreads⟩

end CallEdit

namespace ExpansionContext

/-- The arguments of a call that are coordinates, with their indices among the parameters, from position `p` on: those
that the catalog knows, and those that come from expanded slots. -/
def takenArgs (expanded : IndexSet) (receivers : Nat) (known : List Int) : Nat → List Value → List (Int × Value)
  | _, [] => []
  | p, v :: rest =>
    if known.contains (p : Int) || v.isPacked expanded then
      ((p : Int) - receivers, v) :: takenArgs expanded receivers known (p + 1) rest
    else takenArgs expanded receivers known (p + 1) rest

/-- The coordinates that a call takes with the given arguments. -/
def taken (c : ExpansionContext) (expanded : IndexSet) (op : Opcode) (m : Member) (args : List Value) :
    List (Int × Value) :=
  takenArgs expanded (if op.hasReceiver then 1 else 0) (((c.catalog.lookup m).map Entry.positions).getD []) 0 args

/-- The edit that converts a call. -/
def editOf (c : ExpansionContext) (expanded : IndexSet) (id : InsnId) (op : Opcode) (m : Member) (itf : Bool)
    (f : Frame) : CallEdit :=
  match c.catalog.unpackAxis? m with
  | some axis => ⟨id, some axis, f.stack.take 1, f.stack.take 1, .label⟩
  | none =>
    let args := (f.callArgs op m).toOption.getD []
    let packed := c.taken expanded op m args
    ⟨id, none, args, packed.map Prod.snd, match replacementOf id m (c.catalog.lookup m) (packed.map Prod.fst) with
      | .ok target => .call op target itf
      | .error _ => .label⟩

end ExpansionContext

/-- The edits that a run makes, in order. -/
def CallRun.edits (c : ExpansionContext) (a : Analysis) (expanded : IndexSet) :
    List ((InsnId × Insn) × Frame) → Code → List CallEdit
  | [], _ => []
  | ((id, _), f) :: rest, code =>
    match if code.isLive id then code.get? id else none with
    | some (.call op m itf) =>
      match c.convertCall a expanded code id op m itf f with
      | .error _ => []
      | .ok none => edits c a expanded rest code
      | .ok (some d) => c.editOf expanded id op m itf f :: edits c a expanded rest d
    | _ => edits c a expanded rest code

/-! ## What an edit is -/

namespace ExpansionContext

/-- What is known of the edit of a call. Either an axis is taken from the top of the stack, or the call has
coordinates among its parameters, and another member with three ints for each of them takes its place. -/
inductive Edits (c : ExpansionContext) (expanded : IndexSet) (op : Opcode) (m : Member) (itf : Bool) (f : Frame) :
    CallEdit → Prop
  | unpack {id : InsnId} {axis : Axis} {v : Value} {rest : List Value} (haxis : c.catalog.unpackAxis? m = some axis)
      (hstack : f.stack = v :: rest) : Edits c expanded op m itf f ⟨id, some axis, [v], [v], .label⟩
  | args {id : InsnId} {args : List Value} {t g : MethodType} {target : Member}
      (hunpack : c.catalog.unpackAxis? m = none)
      (hentry : ∀ e, c.catalog.lookup m = some e → e.returnsPacked = false) (hargs : f.callArgs op m = .ok args)
      (hne : c.taken expanded op m args ≠ []) (hparams : ∀ q ∈ c.taken expanded op m args, 0 ≤ q.1)
      (htype : MethodType.parse m.desc = .ok t)
      (hsplit : t.split ((c.taken expanded op m args).map Prod.fst) = .ok g) (htarget : target.desc = g.desc) :
      Edits c expanded op m itf f ⟨id, none, args, (c.taken expanded op m args).map Prod.snd, .call op target itf⟩

/-- The arguments that are taken are those that pass the check. -/
theorem packedArgs_eq {receivers k : Nat} {known : List Int} {args : List Value} {packed : List (Int × Value)}
    (h : c.packedArgs a expanded code id m receivers known k args = .ok packed) :
    packed = takenArgs expanded receivers known k args ∧ ∀ q ∈ packed, 0 ≤ q.1 := by
  induction args generalizing k packed with
  | nil =>
    obtain rfl := Except.ok.inj h
    exact ⟨rfl, by simp⟩
  | cons v rest ih =>
    rw [packedArgs] at h
    rw [takenArgs]
    split at h
    · next htaken =>
      rw [if_pos htaken]
      split at h
      · cases h
      · next hreceiver =>
        split at h
        · cases h
        · cases hrest : c.packedArgs a expanded code id m receivers known (k + 1) rest with
          | error e => simp [hrest, Except.map] at h
          | ok vs =>
            simp only [hrest, Except.map, Except.ok.injEq] at h
            subst h
            obtain ⟨hvs, hindices⟩ := ih hrest
            refine ⟨by rw [hvs], ?_⟩
            intro q hq
            rcases List.mem_cons.mp hq with rfl | hq
            · simp only
              omega
            · exact hindices q hq
    · next htaken =>
      rw [if_neg htaken]
      exact ih h

/-- The descriptor of the replacement. -/
theorem replacementOf_ok {entry : Option Entry} {indices : List Int} {target : Member}
    (h : replacementOf id m entry indices = .ok target) :
    ∃ t g, MethodType.parse m.desc = .ok t ∧ t.split indices = .ok g ∧ target.desc = g.desc := by
  rw [replacementOf] at h
  split at h
  · cases h
  · next t ht =>
    split at h
    · cases h
    · next g hg =>
      refine ⟨t, g, ht, hg, ?_⟩
      split at h
      · rw [← Except.ok.inj h]
      · split at h
        · cases h
        · rw [← Except.ok.inj h]

/-- A call that was converted passed the checks, and its producers were changed before it was. -/
structure Converts (c : ExpansionContext) (a : Analysis) (expanded : IndexSet) (code : Code) (op : Opcode)
    (m : Member) (itf : Bool) (f : Frame) (e : CallEdit) (d : Code) : Prop where
  edits : c.Edits expanded op m itf f e
  checked : ∀ v ∈ e.taken, c.checkProducers a code e.call v = .ok ()
  changed : ∃ d₁, e.producers.foldlM (fun code p => c.convertProducer e.part code p) code = .ok d₁ ∧
    if e.reads = .label then d₁.remove e.call = .ok d else d₁.set e.call e.reads = .ok d

/-- Taking an axis out makes its edit. -/
theorem convertUnpack_some {axis : Axis} (haxis : c.catalog.unpackAxis? m = some axis)
    (h : c.convertUnpack a expanded code id f axis = .ok (some d)) :
    c.Converts a expanded code op m itf f (c.editOf expanded id op m itf f) d := by
  rw [convertUnpack.eq_def] at h
  split at h
  · cases h
  · next v rest hstack =>
    split at h
    · cases h
    · obtain ⟨⟨⟩, hcheck, h⟩ := except_bind_ok.mp h
      obtain ⟨d₁, hvalue, h⟩ := except_bind_ok.mp h
      obtain ⟨d₂, hremove, h⟩ := except_bind_ok.mp h
      obtain rfl : d₂ = d := Option.some.inj (Except.ok.inj h)
      have hedit : c.editOf expanded id op m itf f = ⟨id, some axis, [v], [v], .label⟩ := by
        simp only [editOf, haxis, hstack, List.take_succ_cons, List.take_zero]
      rw [hedit]
      refine ⟨.unpack haxis hstack, ?_, d₁, ?_, ?_⟩
      · intro w hw
        rw [List.mem_singleton.mp hw]
        exact Outcome.ofExcept_ok.mp hcheck
      · simp only [CallEdit.producers, List.flatMap_cons, List.flatMap_nil, List.append_nil, Value.producers,
          List.foldlM_map]
        exact hvalue
      · rw [if_pos rfl]
        exact Outcome.ofExcept_ok.mp hremove

/-- A call that is accepted is converted by its edit. -/
theorem Accepts.converts {packed : List (Int × Value)} {target : Member}
    (haccepts : c.Accepts a expanded code id op m f packed target)
    (h : c.convertCall a expanded code id op m itf f = .ok (some d)) :
    c.Converts a expanded code op m itf f (c.editOf expanded id op m itf f) d := by
  rw [convertCall_of_accepts haccepts] at h
  obtain ⟨d₁, hsplit, h⟩ := except_bind_ok.mp h
  obtain ⟨d₂, hset, h⟩ := except_bind_ok.mp h
  obtain rfl : d₂ = d := Option.some.inj (Except.ok.inj h)
  obtain ⟨args, hargs, hpacked⟩ := haccepts.args
  obtain ⟨hpacked', hparams⟩ := packedArgs_eq hpacked
  have htaken : packed = c.taken expanded op m args := hpacked'
  obtain ⟨t, g, ht, hg, htarget⟩ := replacementOf_ok haccepts.target
  have hedit : c.editOf expanded id op m itf f =
      ⟨id, none, args, packed.map Prod.snd, .call op target itf⟩ := by
    have hargs' : (f.callArgs op m).toOption.getD [] = args := by rw [hargs]; rfl
    simp only [editOf, haccepts.notUnpack, hargs', ← htaken, haccepts.target]
  rw [hedit]
  refine ⟨?_, ?_, d₁, ?_, ?_⟩
  · subst htaken
    exact .args haccepts.notUnpack (fun e he => (haccepts.entry e he).1) hargs haccepts.nonempty hparams ht hg htarget
  · intro v hv
    obtain ⟨q, hq, rfl⟩ := List.mem_map.mp hv
    exact packedArgs_ok hpacked q hq
  · have hproducers : CallEdit.producers ⟨id, none, args, packed.map Prod.snd, .call op target itf⟩ =
        (producersOf packed).map fun (p : Nat) => (p : InsnId) := by
      rw [CallEdit.producers, List.flatMap_map, producersOf, List.map_flatMap]
      rfl
    rw [hproducers, List.foldlM_map]
    exact hsplit
  · rw [if_neg (by simp)]
    exact Outcome.ofFault_ok.mp hset

theorem convertCall_some (h : c.convertCall a expanded code id op m itf f = .ok (some d)) :
    c.Converts a expanded code op m itf f (c.editOf expanded id op m itf f) d := by
  rcases @convertCall_cases c code id a expanded op m itf f with ⟨axis, haxis, h'⟩ | ⟨packed, target, h'⟩ | h' | ⟨e, h'⟩
  · rw [h'] at h
    exact convertUnpack_some haxis h
  · exact h'.converts h
  · rw [h'] at h
    cases h
  · rw [h'] at h
    cases h

@[simp] theorem call_editOf : (c.editOf expanded id op m itf f).call = id := by
  rw [editOf]
  split <;> rfl

theorem takenArgs_sublist (expanded : IndexSet) (receivers : Nat) (known : List Int) (k : Nat) (args : List Value) :
    ((takenArgs expanded receivers known k args).map Prod.snd).Sublist args := by
  induction args generalizing k with
  | nil => exact List.Sublist.refl []
  | cons v rest ih =>
    rw [takenArgs]
    split
    · exact (ih (k + 1)).cons_cons v
    · exact (ih (k + 1)).cons v

/-- What a call takes lies on top of the stack, the last argument on top. -/
theorem stack_of_callArgs {args : List Value} (h : f.callArgs op m = .ok args) :
    ∃ t rest, MethodType.parse m.desc = .ok t ∧ f.stack = args.reverse ++ rest ∧
      args.length = t.params.length + if op.hasReceiver then 1 else 0 := by
  rw [Frame.callArgs] at h
  split at h
  · cases h
  · next t ht =>
    dsimp only at h
    generalize hn : (t.params.length + if op.hasReceiver then 1 else 0) = n at h
    by_cases hunderflow : f.stack.length < n
    · rw [if_pos hunderflow] at h
      cases h
    · rw [if_neg hunderflow] at h
      obtain rfl := Except.ok.inj h
      refine ⟨t, f.stack.drop n, ht, by rw [List.reverse_reverse, List.take_append_drop], ?_⟩
      rw [List.length_reverse, List.length_take, hn]
      omega

variable (h : c.Edits expanded op m itf f e)

include h

/-- The coordinates are among what the call finds on the stack. -/
theorem Edits.taken_sublist : e.taken.Sublist e.args := by
  cases h with
  | unpack => exact List.Sublist.refl _
  | args => exact takenArgs_sublist _ _ _ _ _

theorem Edits.args_mem : ∀ v ∈ e.args, v ∈ f.stack := by
  cases h with
  | unpack _ hstack => simp [hstack]
  | args _ _ hargs =>
    obtain ⟨t, rest, -, hstack, -⟩ := stack_of_callArgs hargs
    intro v hv
    simp [hstack, show v ∈ _ from hv]

theorem Edits.taken_mem : ∀ v ∈ e.taken, v ∈ f.stack :=
  fun v hv => h.args_mem v (h.taken_sublist.subset hv)

/-! ## What an edit leaves -/

theorem Edits.reads_eq :
    (e.reads = .label ∧ (c.catalog.unpackAxis? m).isSome = true) ∨ ∃ target, e.reads = .call op target itf := by
  cases h with
  | unpack haxis => exact .inl ⟨rfl, by rw [haxis]; rfl⟩
  | args => exact .inr ⟨_, rfl⟩

/-- A call that is converted is not an accessor. -/
theorem Edits.desc_ne (hcat : c.catalog.Shaped) : m.desc ≠ ("()I" : Text) := by
  intro hdesc
  cases h with
  | unpack haxis =>
    rw [hcat.unpackAxis?_desc haxis] at hdesc
    exact absurd hdesc (by decide)
  | @args _ args t g _ _ _ _ hne _ htype hsplit =>
    rw [hdesc, parse_accessorDesc] at htype
    obtain rfl := Except.ok.inj htype
    obtain ⟨q, rest, htaken⟩ := List.exists_cons_of_ne_nil hne
    obtain ⟨k, -, hk⟩ := MethodType.long_of_split hsplit (i := q.1) (by simp [htaken])
    cases hk

/-- A call that is converted pushes no coordinate. -/
theorem Edits.not_emitter (hcat : c.catalog.Shaped) :
    c.isEmitter (.call op m itf) = false := by
  by_contra hemitter
  have hoperand : ¬ c.isOperand (.call op m itf) = true := Bool.false_ne_true
  rw [Bool.not_eq_false, isEmitter.eq_def, Bool.or_eq_true, or_iff_right hoperand] at hemitter
  cases he : c.catalog.lookup m with
  | none => simp [he] at hemitter
  | some entry =>
    simp only [he, Bool.and_eq_true] at hemitter
    obtain ⟨hkey, hmem⟩ := Catalog.lookup_key he
    have hreturns := (hcat.entries entry hmem).returnsPacked_of_isProducer hemitter.1
    cases h with
    | unpack haxis =>
      obtain ⟨t, -, ht, -, -, hresult, -⟩ := (hcat.entries entry hmem).type
      rw [hkey, hcat.unpackAxis?_desc haxis, parse_unpackDesc] at ht
      obtain rfl := Except.ok.inj ht
      exact absurd (hresult hreturns) (by decide)
    | args _ hentry =>
      rw [hentry entry he] at hreturns
      cases hreturns

end ExpansionContext

/-- The edit has been made: its producers were changed and the call became what it is read as, or is gone. -/
structure CallEdit.Made (e : CallEdit) (code d : Code) : Prop where
  linked : d.WellLinked
  size : code.nodes.size ≤ d.nodes.size
  others : ∀ id, id ∉ e.producers → id ≠ e.call → id < (code.nodes.size : Int) → d.state? id = code.state? id
  spent : ∀ p ∈ e.producers, ∀ op m itf, d.state? p = some (.call op m itf, false) → m.desc = ("()I" : Text)
  call : ∀ x, d.state? e.call = some (x, false) → x = e.reads

namespace ExpansionContext

variable (h : c.Converts a expanded code op m itf f e d)

include h

/-- What was checked of the producers of an edit. -/
theorem Converts.producer {p : InsnId} (hp : p ∈ e.producers) :
    a.OnlyUser e.call p ∧ ∃ x, code.state? p = some (x, false) ∧ c.isEmitter x = true := by
  obtain ⟨v, hv, hp⟩ := List.mem_flatMap.mp hp
  obtain ⟨k, hk, rfl⟩ := List.mem_map.mp hp
  obtain ⟨hlive, hsize, hcontains, x, hx, hemitter⟩ := checkProducer_ok (checkProducers_ok (h.checked v hv) k hk)
  exact ⟨⟨hsize, hcontains⟩, x, Code.state?_of_isLive hlive hx, hemitter⟩

theorem Converts.not_mem_producers (hcat : c.catalog.Shaped)
    (hcall : code.state? e.call = some (.call op m itf, false)) : e.call ∉ e.producers := by
  intro hmem
  obtain ⟨-, x, hx, hemitter⟩ := h.producer hmem
  obtain ⟨rfl, -⟩ := Prod.mk.inj (Option.some.inj (hcall.symm.trans hx))
  rw [h.edits.not_emitter hcat] at hemitter
  cases hemitter

theorem Converts.changes (hcat : c.catalog.Shaped) (hcode : code.WellLinked) (hnodup : e.producers.Nodup) {d₁ : Code}
    (hd₁ : e.producers.foldlM (fun code p => c.convertProducer e.part code p) code = .ok d₁) :
    Changes code e.producers d₁ :=
  convertProducers_changes hcat hcode hnodup (fun _ hp => (h.producer hp).2) hd₁

/-- A call that is converted has its edit made. -/
theorem Converts.made (hcat : c.catalog.Shaped)
    (hcode : code.WellLinked) (hcall : code.state? e.call = some (.call op m itf, false))
    (hnodup : e.producers.Nodup) : e.Made code d := by
  obtain ⟨d₁, hd₁, hlast⟩ := h.changed
  have hchanges := h.changes hcat hcode hnodup hd₁
  have hnot := h.not_mem_producers hcat hcall
  have hcall₁ : d₁.state? e.call = some (.call op m itf, false) := by
    rw [hchanges.others e.call hnot (Code.lt_size_of_state? hcall), hcall]
  obtain ⟨pre, post, hheld⟩ := hchanges.linked.exists_split hcall₁
  have hmade : d.WellLinked → d₁.EditsAt d e.call → (∀ x, d.state? e.call = some (x, false) → x = e.reads) →
      e.Made code d := by
    intro hlinked hedit hreads
    refine ⟨hlinked, le_trans hchanges.size hedit.size, ?_, ?_, hreads⟩
    · intro id hid hne hlt
      rw [hedit.others id hne (lt_of_lt_of_le hlt (by exact_mod_cast hchanges.size)), hchanges.others id hid hlt]
    · intro p hp op' m' itf' hstate
      obtain ⟨-, x, hx, -⟩ := h.producer hp
      have hlt : p < (d₁.nodes.size : Int) :=
        lt_of_lt_of_le (Code.lt_size_of_state? hx) (by exact_mod_cast hchanges.size)
      rw [hedit.others p (fun heq => hnot (heq ▸ hp)) hlt] at hstate
      exact hchanges.spent p hp op' m' itf' hstate
  split at hlast
  · obtain ⟨d', hd', hstate, hedit⟩ := Code.state?_remove hcall₁ rfl
    obtain rfl := Except.ok.inj (hd'.symm.trans hlast)
    refine hmade (remove_holds hheld rfl hlast).1.wellLinked hedit fun x hx => ?_
    rw [hstate] at hx
    cases hx
  · obtain ⟨d', hd', hstate, hedit⟩ := Code.state?_set hcall₁ e.reads
    obtain rfl := Except.ok.inj (hd'.symm.trans hlast)
    refine hmade (set_holds hheld hlast).1.wellLinked hedit fun x hx => ?_
    rw [hstate] at hx
    exact (Prod.mk.inj (Option.some.inj hx)).1.symm

end ExpansionContext

/-! ## The edits of a run -/

namespace CallRun

variable {x : Insn} {rest : List ((InsnId × Insn) × Frame)}

/-- A run makes an edit at a line, goes past it, or stops. -/
theorem edits_cons (n : Nat) :
    (∃ op m itf d, code.state? id = some (.call op m itf, false) ∧
      c.convertCall a expanded code id op m itf f = .ok (some d) ∧
      edits c a expanded (((id, x), f) :: rest) code =
        c.editOf expanded id op m itf f :: edits c a expanded rest d ∧
      convertAll c a expanded (((id, x), f) :: rest) ⟨code, n, none⟩ = convertAll c a expanded rest ⟨d, n + 1, none⟩) ∨
    (edits c a expanded (((id, x), f) :: rest) code = edits c a expanded rest code ∧
      convertAll c a expanded (((id, x), f) :: rest) ⟨code, n, none⟩ = convertAll c a expanded rest ⟨code, n, none⟩) ∨
    edits c a expanded (((id, x), f) :: rest) code = [] ∧
      (convertAll c a expanded (((id, x), f) :: rest) ⟨code, n, none⟩).failed ≠ none := by
  rw [edits, convertAll]
  by_cases hcall : ∃ op m itf, (if code.isLive id then code.get? id else none) = some (.call op m itf)
  · obtain ⟨op, m, itf, hcall⟩ := hcall
    have hstate : code.state? id = some (.call op m itf, false) := by
      split at hcall
      · next hlive => exact Code.state?_of_isLive hlive hcall
      · cases hcall
    simp only [hcall]
    cases hconvert : c.convertCall a expanded code id op m itf f with
    | error e => exact .inr (.inr ⟨rfl, by simp⟩)
    | ok d =>
      cases d with
      | none => exact .inr (.inl ⟨rfl, rfl⟩)
      | some d => exact .inl ⟨op, m, itf, d, hstate, hconvert, rfl, rfl⟩
  · refine .inr (.inl ⟨?_, ?_⟩)
    · split
      · next op m itf heq => exact absurd ⟨op, m, itf, heq⟩ hcall
      · rfl
    · split
      · next op m itf heq => exact absurd ⟨op, m, itf, heq⟩ hcall
      · rfl

/-- The calls that are converted are among the lines. -/
theorem edits_calls (lines : List ((InsnId × Insn) × Frame)) (code : Code) :
    ((edits c a expanded lines code).map CallEdit.call).Sublist (lines.map fun l => l.1.1) := by
  induction lines generalizing code with
  | nil => exact List.Sublist.refl []
  | cons line rest ih =>
    obtain ⟨⟨id, x⟩, f⟩ := line
    rcases @edits_cons c a expanded code id f x rest 0 with ⟨op, m, itf, d, -, -, hedits, -⟩ | ⟨hedits, -⟩ | ⟨hedits, -⟩
    · rw [hedits, List.map_cons, ExpansionContext.call_editOf]
      exact (ih d).cons_cons _
    · rw [hedits]
      exact (ih code).cons _
    · rw [hedits]
      exact List.nil_sublist _

/-- What is taken is among what the call finds on the stack. -/
theorem taken_sublist_of_mem (lines : List ((InsnId × Insn) × Frame)) (code : Code) :
    ∀ e ∈ edits c a expanded lines code, e.taken.Sublist e.args := by
  induction lines generalizing code with
  | nil => simp [edits]
  | cons line rest ih =>
    obtain ⟨⟨id, x⟩, f⟩ := line
    rcases @edits_cons c a expanded code id f x rest 0 with ⟨op, m, itf, d, -, hconvert, hedits, -⟩ | ⟨hedits, -⟩ |
      ⟨hedits, -⟩
    · intro e he
      rw [hedits] at he
      rcases List.mem_cons.mp he with rfl | he
      · exact (ExpansionContext.convertCall_some hconvert).edits.taken_sublist
      · exact ih d e he
    · rw [hedits]
      exact ih code
    · rw [hedits]
      simp

/-- What is known of one of the edits `es` of a run, before it starts. -/
structure Sound (c : ExpansionContext) (a : Analysis) (expanded : IndexSet) (lines : List ((InsnId × Insn) × Frame))
    (code : Code) (es : List CallEdit) (e : CallEdit) : Prop where
  call : ∃ op m itf x f, ((e.call, x), f) ∈ lines ∧ code.state? e.call = some (.call op m itf, false) ∧
    c.Edits expanded op m itf f e
  user : ∀ p ∈ e.producers, a.OnlyUser e.call p
  emitter : ∀ p ∈ e.producers, ∃ x, c.isEmitter x = true ∧
    (code.state? p = some (x, false) ∨ ∃ e' ∈ es, e'.call = p ∧ e'.reads = x)

/-- The lines are about instructions with ids below `n`. -/
def Below (n : Nat) (lines : List ((InsnId × Insn) × Frame)) : Prop :=
  ∀ l ∈ lines, l.1.1 < (n : Int) ∧ ∀ v ∈ l.2.stack, ∀ p ∈ v.producers, p < (n : Int)

variable {lines : List ((InsnId × Insn) × Frame)} {n : Nat} {e₀ : CallEdit}

theorem Sound.below (h : Sound c a expanded lines code es e) (hbelow : Below n lines) :
    e.call < (n : Int) ∧ ∀ p ∈ e.producers, p < (n : Int) := by
  obtain ⟨op, m, itf, x, f, hline, -, hedits⟩ := h.call
  refine ⟨(hbelow _ hline).1, fun p hp => ?_⟩
  obtain ⟨v, hv, hp⟩ := List.mem_flatMap.mp hp
  exact (hbelow _ hline).2 v (hedits.taken_mem v hv) p hp

/-- What is known of an edit after another one was made was known before. -/
theorem Sound.of_made {line : (InsnId × Insn) × Frame} (h : Sound c a expanded rest d es e)
    (hcat : c.catalog.Shaped) (hbelow : Below n rest) (hn : n ≤ code.nodes.size) (hmade : e₀.Made code d)
    (huser : ∀ p ∈ e₀.producers, a.OnlyUser e₀.call p)
    (hne : e.call ≠ e₀.call) : Sound c a expanded (line :: rest) code (e₀ :: es) e := by
  have hn' : (n : Int) ≤ code.nodes.size := by exact_mod_cast hn
  obtain ⟨hlt, hproducers⟩ := h.below hbelow
  obtain ⟨op, m, itf, x, f, hline, hstate, hedits⟩ := h.call
  refine ⟨⟨op, m, itf, x, f, List.mem_cons_of_mem _ hline, ?_, hedits⟩, h.user, ?_⟩
  · -- a producer that was changed is not a call that is converted
    have hnot : e.call ∉ e₀.producers := fun hmem => hedits.desc_ne hcat (hmade.spent e.call hmem op m itf hstate)
    rw [← hmade.others e.call hnot hne (lt_of_lt_of_le hlt hn'), hstate]
  · intro p hp
    obtain ⟨y, hy, hstate | ⟨e', he', hcall⟩⟩ := h.emitter p hp
    · have hnot : p ∉ e₀.producers := fun hmem =>
        hne ((h.user p hp).eq (huser p hmem))
      by_cases hp₀ : p = e₀.call
      · subst hp₀
        exact ⟨y, hy, .inr ⟨e₀, List.mem_cons_self, rfl, (hmade.call y hstate).symm⟩⟩
      · exact ⟨y, hy, .inl (by rw [← hmade.others p hnot hp₀ (lt_of_lt_of_le (hproducers p hp) hn'), hstate])⟩
    · exact ⟨y, hy, .inr ⟨e', List.mem_cons_of_mem _ he', hcall⟩⟩

/-- An edit has nothing to do with what another one has changed, except that the call which it left may be a
producer. -/
theorem Sound.apart (h : Sound c a expanded rest d es e) (hcat : c.catalog.Shaped) (hmade : e₀.Made code d)
    (huser : ∀ p ∈ e₀.producers, a.OnlyUser e₀.call p)
    (hne : ∀ e' ∈ es, e'.call ≠ e₀.call) (he : e ∈ es) :
    e.call ∉ e₀.producers ∧ (∀ p ∈ e.producers, p ∉ e₀.producers) ∧
      (e₀.reads = .label → e₀.call ∉ e.producers) := by
  refine ⟨?_, ?_, ?_⟩
  · intro hmem
    obtain ⟨op, m, itf, x, f, -, hstate, hedits⟩ := h.call
    exact hedits.desc_ne hcat (hmade.spent e.call hmem op m itf hstate)
  · intro p hp hmem
    exact hne e he ((h.user p hp).eq (huser p hmem))
  · intro hreads hmem
    obtain ⟨x, hx, hstate | ⟨e', he', hcall, -⟩⟩ := h.emitter e₀.call hmem
    · rw [hmade.call x hstate, hreads] at hx
      cases hx
    · exact hne e' he' hcall

/-- The edits of a run can be told before it starts. -/
theorem edits_sound (hcat : c.catalog.Shaped) (hcode : code.WellLinked) (hbelow : Below n lines)
    (hn : n ≤ code.nodes.size) (hids : (lines.map fun l => l.1.1).Nodup)
    (hnodup : ∀ e ∈ edits c a expanded lines code, e.producers.Nodup) :
    ∀ e ∈ edits c a expanded lines code, Sound c a expanded lines code (edits c a expanded lines code) e := by
  induction lines generalizing code with
  | nil => simp [edits]
  | cons line rest ih =>
    obtain ⟨⟨id, x⟩, f⟩ := line
    rw [List.map_cons, List.nodup_cons] at hids
    have hrest : Below n rest := fun l hl => hbelow l (List.mem_cons_of_mem _ hl)
    rcases @edits_cons c a expanded code id f x rest 0 with ⟨op, m, itf, d, hstate, hconvert, hedits, -⟩ | ⟨hedits, -⟩ |
      ⟨hedits, -⟩
    · rw [hedits] at hnodup ⊢
      have hconverts := ExpansionContext.convertCall_some hconvert
      have hcall : (c.editOf expanded id op m itf f).call = id := ExpansionContext.call_editOf
      have hmade := hconverts.made hcat hcode (by rw [hcall]; exact hstate) (hnodup _ List.mem_cons_self)
      have hlater := ih hmade.linked hrest (le_trans hn hmade.size) hids.2 fun e he => hnodup e (List.mem_cons_of_mem _ he)
      have huser := fun p hp => (hconverts.producer (p := p) hp)
      intro e he
      rcases List.mem_cons.mp he with rfl | he
      · refine ⟨⟨op, m, itf, x, f, ?_, ?_, hconverts.edits⟩, fun p hp => ?_, fun p hp => ?_⟩
        · rw [hcall]
          exact List.mem_cons_self
        · rw [hcall]
          exact hstate
        · exact (huser p hp).1
        · obtain ⟨-, y, hy, hemitter⟩ := huser p hp
          exact ⟨y, hemitter, .inl hy⟩
      · refine (hlater e he).of_made hcat hrest hn hmade (fun p hp => (huser p hp).1) ?_
        intro heq
        apply hids.1
        rw [← hcall, ← heq]
        exact (edits_calls rest d).subset (List.mem_map_of_mem he)
    · rw [hedits] at hnodup ⊢
      intro e he
      have hsound := ih hcode hrest hn hids.2 hnodup e he
      obtain ⟨op, m, itf, y, g, hline, hcall⟩ := hsound.call
      exact ⟨⟨op, m, itf, y, g, List.mem_cons_of_mem _ hline, hcall⟩, hsound.user, hsound.emitter⟩
    · rw [hedits]
      simp

end CallRun

/-! ## Calls that the edits leave -/

/-- A call whose parameters are not those of a method that works on packed coordinates can be made in any way. -/
theorem Catalog.Shaped.callFits {cat : Catalog} (h : cat.Shaped) {m : Member} {t : MethodType}
    (ht : MethodType.parse m.desc = .ok t) (hone : t.params.length ≠ 1) (htwo : t.params.length ≠ 2)
    (hnone : t.params = [] → t.result ≠ .long) (op : Opcode) : cat.CallFits op m := by
  refine ⟨?_, ?_, ?_⟩
  · intro hunpack
    obtain ⟨axis, haxis⟩ := Option.isSome_iff_exists.mp hunpack
    rw [h.unpackAxis?_desc haxis, parse_unpackDesc] at ht
    obtain rfl := Except.ok.inj ht
    exact absurd rfl hone
  · intro hoffset
    rw [Catalog.isOffset] at hoffset
    split at hoffset
    · next o ho =>
      obtain ⟨f, u, hf, hparams, -⟩ := (h.offset o ho).type
      rw [of_decide_eq_true hoffset, ht] at hf
      obtain rfl := Except.ok.inj hf
      rw [hparams] at htwo
      exact absurd rfl htwo
    · cases hoffset
  · intro e he haxes
    obtain ⟨hkey, hmem⟩ := Catalog.lookup_key he
    have hshape := h.entries e hmem
    obtain ⟨axes, ha⟩ := Option.isSome_iff_exists.mp haxes
    obtain ⟨f, -, hf, -, -, hresult, hparams⟩ := hshape.type
    rw [hkey, ht] at hf
    obtain rfl := Except.ok.inj hf
    exact absurd (hresult (hshape.axes axes ha).1) (hnone (hparams haxes))

namespace ExpansionContext

/-- The call that takes the place of a converted one can be made in any way. -/
theorem Edits.callFits (h : c.Edits expanded op m itf f e) (hcat : c.catalog.Shaped) {op' : Opcode} {target : Member}
    {itf' : Bool} (hreads : e.reads = .call op' target itf') : c.catalog.CallFits op' target := by
  cases h with
  | unpack => cases hreads
  | @args _ args t g target' _ _ _ hne _ htype hsplit htarget =>
    obtain ⟨-, rfl, -⟩ := Insn.call.inj hreads
    have hparse : MethodType.parse target'.desc = .ok g := by
      rw [htarget]
      exact MethodType.parse_desc ((MethodType.writable_of_parse htype).split hsplit)
    have hlength : 3 ≤ g.params.length := by
      obtain ⟨q, rest, htaken⟩ := List.exists_cons_of_ne_nil hne
      obtain ⟨k, hq, hk⟩ := MethodType.long_of_split hsplit (i := q.1) (by simp [htaken])
      rw [MethodType.split_params hsplit]
      apply MethodType.length_splitParams (List.getElem?_eq_some_iff.mp hk).1
      rw [Nat.zero_add]
      exact List.mem_map.mpr ⟨q, by simp [htaken], hq⟩
    refine hcat.callFits hparse (by omega) (by omega) (fun hnil => ?_) op'
    rw [hnil] at hlength
    simp at hlength

end ExpansionContext

/-- The calls among the first `n` instructions of a code that a catalog knows are made as they should be. -/
def Code.CallsFitBelow (code : Code) (n : Nat) (cat : Catalog) : Prop :=
  ∀ id op m itf, id < (n : Int) → code.state? id = some (.call op m itf, false) → cat.CallFits op m

/-- An edit leaves calls that are made as they should be. -/
theorem CallEdit.Made.callsFit {e : CallEdit} {c : ExpansionContext} {code d : Code} {n : Nat} {expanded : IndexSet}
    {op : Opcode} {m : Member} {itf : Bool} {f : Frame} (h : e.Made code d) (hcat : c.catalog.Shaped)
    (hedits : c.Edits expanded op m itf f e) (hn : n ≤ code.nodes.size) (hcalls : code.CallsFitBelow n c.catalog) :
    d.CallsFitBelow n c.catalog := by
  intro id op' m' itf' hid hstate
  by_cases hproducer : id ∈ e.producers
  · have hparse : MethodType.parse m'.desc = .ok ⟨[], .int⟩ := by
      rw [h.spent id hproducer op' m' itf' hstate]
      exact parse_accessorDesc
    exact hcat.callFits hparse (by simp) (by simp) (by simp) op'
  · by_cases hcall : id = e.call
    · subst hcall
      exact hedits.callFits hcat (h.call _ hstate).symm
    · rw [h.others id hproducer hcall (lt_of_lt_of_le hid (by exact_mod_cast hn))] at hstate
      exact hcalls id op' m' itf' hid hstate

/-! ## Roles turn into code -/

namespace Staged

open CallEdit

variable {hs : List Handler} {Entry : FrameType → Prop}

/-- Making the first edit takes its roles away. -/
theorem edit (h : Staged c hs Entry (roleOf (e :: es)) code) (hcat : c.catalog.Shaped)
    (hconverts : c.Converts a expanded code op m itf f e d)
    (hcall : code.state? e.call = some (.call op m itf, false)) (hnodup : e.producers.Nodup)
    (hasks : ∀ p ∈ e.producers, ∀ x, code.state? p = some (x, false) → c.AsksReceiver x)
    (hfit : c.catalog.CallFits op m) (hcalls : ∀ e' ∈ es, e'.call ∉ e.producers ∧ e'.call ≠ e.call)
    (hproducers : ∀ e' ∈ es, ∀ p ∈ e'.producers, p ∉ e.producers)
    (hremoved : e.reads = .label → ∀ e' ∈ es, e.call ∉ e'.producers) : Staged c hs Entry (roleOf es) d := by
  obtain ⟨d₁, hd₁, hlast⟩ := hconverts.changed
  have hnot := hconverts.not_mem_producers hcat hcall
  have hchanges := hconverts.changes hcat h.linked hnodup hd₁
  have hcall₁ : d₁.state? e.call = some (.call op m itf, false) := by
    rw [hchanges.others e.call hnot (Code.lt_size_of_state? hcall), hcall]
  have hreading : ∀ p ∈ e.producers, readingOf (e :: es) p = none := by
    intro p hp
    apply readingOf_eq_none
    intro e' he' heq
    rcases List.mem_cons.mp he' with rfl | he'
    · exact hnot (heq ▸ hp)
    · exact (hcalls e' he').1 (heq ▸ hp)
  -- the producers have done their part, and no later edit asks for them
  have hstage := h.convertProducers hcat hnodup (fun p hp => by
    obtain ⟨-, x, hx, hemitter⟩ := hconverts.producer hp
    exact ⟨x, hx, hemitter, hasks p hp x hx⟩)
    (fun p hp => by rw [roleOf, hreading p hp, partOf_cons_of_mem hp]) hd₁
  have hD : ∀ id, id ≠ e.call →
      roleOf es id = if id ∈ e.producers then .plain else roleOf (e :: es) id := by
    intro id hid
    split
    · next hp =>
      rw [roleOf, partOf_eq_none fun e' he' hp' => hproducers e' he' id hp' hp,
        ← readingOf_cons_of_ne hid, hreading id hp]
      rfl
    · next hp =>
      rw [roleOf, roleOf, readingOf_cons_of_ne hid, partOf_cons_of_not_mem hp]
  have hrole : (if e.call ∈ e.producers then .plain else roleOf (e :: es) e.call) =
      (⟨some e.reads, partOf es e.call⟩ : Role) := by
    rw [if_neg hnot, roleOf, readingOf_cons_self, partOf_cons_of_not_mem hnot]
  have hself : readingOf es e.call = none :=
    readingOf_eq_none fun e' he' => (hcalls e' he').2
  rcases hconverts.edits.reads_eq with ⟨hreads, hunpack⟩ | ⟨target, hreads⟩
  · rw [if_pos hreads] at hlast
    have hop : op.falls = true := by rw [hfit.unpack hunpack]; rfl
    refine hstage.removeCall hcall₁ hop ?_ hD hlast
    rw [hrole, hreads, partOf_eq_none (hremoved hreads)]
  · rw [if_neg (by simp [hreads]), hreads] at hlast
    refine hstage.setCall hcall₁ ?_ hD ?_ hlast
    · rw [hrole, hreads]
    · rw [hrole, roleOf, hself]

/-- A run of conversions turns all roles into code. -/
theorem convertAll (hcat : c.catalog.Shaped) {lines : List ((InsnId × Insn) × Frame)} {n : Nat}
    (hbelow : CallRun.Below n lines) (hids : (lines.map fun l => l.1.1).Nodup) (hn : n ≤ code.nodes.size)
    (hfits : code.CallsFitBelow n c.catalog)
    (hnodup : ∀ e ∈ CallRun.edits c a expanded lines code, e.producers.Nodup)
    (h : Staged c hs Entry (roleOf (CallRun.edits c a expanded lines code)) code) (k : Nat)
    (hok : (CallRun.convertAll c a expanded lines ⟨code, k, none⟩).failed = none) :
    Staged c hs Entry (fun _ => .plain) (CallRun.convertAll c a expanded lines ⟨code, k, none⟩).code := by
  induction lines generalizing code k with
  | nil => exact h
  | cons line rest ih =>
    obtain ⟨⟨id, x⟩, f⟩ := line
    have hbelow' : CallRun.Below n rest := fun l hl => hbelow l (List.mem_cons_of_mem _ hl)
    rw [List.map_cons, List.nodup_cons] at hids
    rcases @CallRun.edits_cons c a expanded code id f x rest k with
      ⟨op, m, itf, d, hstate, hconvert, hedits, hrun⟩ | ⟨hedits, hrun⟩ | ⟨-, hfailed⟩
    · rw [hrun] at hok ⊢
      rw [hedits] at hnodup h
      have hcall : (c.editOf expanded id op m itf f).call = id := ExpansionContext.call_editOf
      have hconverts := ExpansionContext.convertCall_some hconvert
      generalize c.editOf expanded id op m itf f = e at hcall hconverts hnodup h
      subst hcall
      have hmade := hconverts.made hcat h.linked hstate (hnodup _ List.mem_cons_self)
      have hlater := fun e' he' => hnodup e' (List.mem_cons_of_mem _ he')
      have hsound := CallRun.edits_sound hcat hmade.linked hbelow' (le_trans hn hmade.size) hids.2 hlater
      have hother : ∀ e' ∈ CallRun.edits c a expanded rest d, e'.call ≠ e.call := by
        intro e' he' heq
        apply hids.1
        rw [← heq]
        exact (CallRun.edits_calls rest d).subset (List.mem_map_of_mem he')
      have hapart := fun e' he' => (hsound e' he').apart hcat hmade
        (fun p hp => (hconverts.producer hp).1) hother he'
      have hproducer : ∀ p ∈ e.producers, p < (n : Int) := by
        intro p hp
        obtain ⟨v, hv, hp⟩ := List.mem_flatMap.mp hp
        exact (hbelow _ List.mem_cons_self).2 v (hconverts.edits.taken_mem v hv) p hp
      have hstage := h.edit hcat hconverts hstate (hnodup _ List.mem_cons_self)
        (fun p hp y hy op' m' itf' entry heq hentry => by
          rw [heq] at hy
          exact (hfits p op' m' itf' (hproducer p hp) hy).axes entry hentry)
        (hfits e.call op m itf (hbelow _ List.mem_cons_self).1 hstate)
        (fun e' he' => ⟨(hapart e' he').1, hother e' he'⟩) (fun e' he' => (hapart e' he').2.1)
        (fun hreads e' he' => (hapart e' he').2.2 hreads)
      exact ih hbelow' hids.2 (le_trans hn hmade.size) (hmade.callsFit hcat hconverts.edits hn hfits) hlater hstage
        (k + 1) hok
    · rw [hrun] at hok ⊢
      rw [hedits] at hnodup h
      exact ih hbelow' hids.2 hn hfits hnodup h k hok
    · exact absurd hok hfailed

end Staged

end CoordSplit
