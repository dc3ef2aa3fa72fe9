import CoordSplit.Proofs.CallEdits
import CoordSplit.Proofs.ConsumerIndex

/-!
# Typing of code with roles

Given the edits that converting the calls is going to make, a table for the code as it is becomes one for the code in
which producers already push parts and the calls already take them: a long on the stack is replaced by the kinds of
the parts that its producers push (`Value.shape`). The rules allow that (`Analysis.Separates.typed`), if no two
producers of one value differ in what they push, no operation that moves values on the stack comes upon a value that
is in parts, and no call takes such a value twice (`Analysis.Separates`).
-/

set_option autoImplicit false

namespace CoordSplit

open Value

/-! ## Shapes -/

section

variable (P : InsnId → Option (Option Axis))

/-- What the producers of a value push of it, if it is to be in parts. -/
def Value.part? (v : Value) : Option (Option Axis) := if v.isWide then v.producers.findSome? P else none

/-- The kinds that a value of the given kind has on the stack when its producers push parts. -/
def Value.shape (v : Value) (κ : Kind) : List Kind :=
  match v.part? P with
  | none => [κ]
  | some part => partKinds part

/-- The kinds of the values of a stack when producers push parts. -/
def shapes (vs : List Value) (ks : List Kind) : List Kind := (List.zipWith (shape P) vs ks).flatten

/-- What produced the value is to push the same of it. -/
def Value.Alike (v : Value) : Prop := ∀ p ∈ v.producers, ∀ q ∈ v.producers, P p = P q

variable {P} {v w : Value} {vs ws : List Value} {ks ks' : List Kind}

theorem Value.part?_of_narrow (h : v.isWide = false) : v.part? P = none := by simp [part?, h]

theorem Value.exists_of_part? {part : Option Axis} (h : v.part? P = some part) :
    ∃ p ∈ v.producers, P p = some part := by
  rw [part?] at h
  split at h
  · exact List.exists_of_findSome?_eq_some h
  · cases h

theorem Value.part?_eq_none (h : ∀ p ∈ v.producers, P p = none) : v.part? P = none := by
  cases hpart : v.part? P with
  | none => rfl
  | some part =>
    obtain ⟨p, hp, hP⟩ := exists_of_part? hpart
    rw [h p hp] at hP
    cases hP

/-- All producers of a value push the same part. -/
theorem Value.Alike.part?_eq (h : v.Alike P) {p : InsnId} (hp : p ∈ v.producers) (hwide : v.isWide = true) :
    v.part? P = P p := by
  cases hP : P p with
  | none => exact part?_eq_none fun q hq => (h q hq p hp).trans hP
  | some part =>
    rw [part?, if_pos hwide]
    cases hfind : v.producers.findSome? P with
    | none =>
      rw [List.findSome?_eq_none_iff.mp hfind p hp] at hP
      cases hP
    | some part' =>
      obtain ⟨q, hq, hP'⟩ := List.exists_of_findSome?_eq_some hfind
      rw [← hP, ← hP', h q hq p hp]

/-- A value has the parts of one that allows more, if anything produced it. -/
theorem Value.Alike.part?_of_below (h : w.Alike P) (hle : v.BelowEvenly w) (hv : v.producers ≠ []) :
    v.part? P = w.part? P := by
  have hmono := producers_mono hle.le
  obtain ⟨p, rest, hp⟩ := List.exists_cons_of_ne_nil hv
  have hmem : p ∈ v.producers := by simp [hp]
  have halike : v.Alike P := fun q hq q' hq' => h q (hmono hq) q' (hmono hq')
  cases hwide : v.isWide with
  | false => rw [part?_of_narrow hwide, part?_of_narrow (hle.isWide.trans hwide)]
  | true => rw [halike.part?_eq hmem hwide, h.part?_eq (hmono hmem) (hle.isWide.trans hwide)]

theorem shapes_append {vs' : List Value} (h : vs.length = ks.length) :
    shapes P (vs ++ vs') (ks ++ ks') = shapes P vs ks ++ shapes P vs' ks' := by
  rw [shapes, List.zipWith_append h, List.flatten_append]
  rfl

theorem shapes_of_none (h : vs.length = ks.length) (hvs : ∀ v ∈ vs, v.part? P = none) : shapes P vs ks = ks := by
  induction vs generalizing ks with
  | nil =>
    cases ks with
    | nil => rfl
    | cons => cases h
  | cons v vs ih =>
    cases ks with
    | nil => cases h
    | cons κ ks =>
      have hrest := ih (by simpa using h) fun w hw => hvs w (List.mem_cons_of_mem _ hw)
      have hhead : v.shape P κ = [κ] := by rw [shape, hvs v List.mem_cons_self]
      rw [shapes, List.zipWith_cons_cons, List.flatten_cons, hhead]
      exact congrArg (κ :: ·) hrest

theorem shapes_congr (h : List.Forall₂ (fun v w => v.part? P = w.part? P) vs ws) (ks : List Kind) :
    shapes P vs ks = shapes P ws ks := by
  induction h generalizing ks with
  | nil => rfl
  | cons hvw _ ih =>
    cases ks with
    | nil => rfl
    | cons κ ks =>
      rw [shapes, shapes, List.zipWith_cons_cons, List.zipWith_cons_cons, List.flatten_cons, List.flatten_cons,
        shape, hvw]
      exact congrArg _ (ih ks)

/-- The parts of a value are ints, so a stack read from below has its shapes from below. -/
theorem shapes_reverse (h : vs.length = ks.length) : shapes P vs.reverse ks.reverse = (shapes P vs ks).reverse := by
  have hshape : ∀ v κ, (shape P v κ).reverse = shape P v κ := by
    intro v κ
    rw [shape]
    split
    · rfl
    · next part _ => cases part <;> rfl
  have hmap : (List.zipWith (shape P) vs ks).map List.reverse = List.zipWith (shape P) vs ks := by
    rw [List.map_zipWith]
    simp only [hshape]
  rw [shapes, ← List.reverse_zipWith h, shapes, List.reverse_flatten, hmap]

end

/-! ## Edits of an analysed method -/

/-- Whatever the instruction pushes is one long. -/
def Insn.PushesLong (x : Insn) : Prop :=
  ∀ first ks L ks' L', Typing first x ks L ks' L' → ks' = [.long]

/-- What the edits of a method have to do with its analysis. -/
structure Analysis.Edited (a : Analysis) (c : ExpansionContext) (expanded : IndexSet) (es : List CallEdit) : Prop where
  nodup : (es.map CallEdit.call).Nodup
  call : ∀ e ∈ es, ∃ op member itf f, ((e.call, .call op member itf), f) ∈ a.reachable ∧
    c.Edits expanded op member itf f e
  fits : ∀ e ∈ es, ∀ op member itf f, ((e.call, .call op member itf), f) ∈ a.reachable →
    c.catalog.CallFits op member
  user : ∀ e ∈ es, ∀ p ∈ e.producers, a.OnlyUser e.call p
  pushes : ∀ e ∈ es, ∀ p ∈ e.producers, ∀ x f, ((p, x), f) ∈ a.reachable →
    (∀ op, x ≠ .plain op) ∧ Insn.PushesLong ((CallEdit.readingOf es p).getD x)

/-- Converting the calls does not get in the way of what else happens on the stack: what produced a value is to push
the same of it, a value in parts is not moved on the stack, and no call takes it twice. -/
structure Analysis.Separates (a : Analysis) (es : List CallEdit) : Prop where
  alike : ∀ id x f, ((id, x), f) ∈ a.reachable → ∀ v ∈ f.stack, v.Alike (CallEdit.partOf es)
  unmoved : ∀ id op f, ((id, .plain op), f) ∈ a.reachable → ∀ top top' rest, f.stack = top ++ rest →
    Step.Rearranges isWide op top top' → ∀ v ∈ top, ∀ p ∈ v.producers, CallEdit.partOf es p = none
  once : ∀ e ∈ es, ((e.args.flatMap producers).filter fun p => (CallEdit.partOf es p).isSome).Nodup

namespace CallEdit

variable {e : CallEdit} {es : List CallEdit} {p : InsnId}

theorem partOf_isSome (he : e ∈ es) (hp : p ∈ e.producers) : (partOf es p).isSome = true := by
  rw [partOf, Option.isSome_map, List.find?_isSome]
  exact ⟨e, he, by simpa using hp⟩

theorem readingOf_eq (h : (es.map call).Nodup) (he : e ∈ es) : readingOf es e.call = some e.reads := by
  cases hreading : readingOf es e.call with
  | none =>
    rw [readingOf, Option.map_eq_none_iff, List.find?_eq_none] at hreading
    exact absurd (decide_eq_true rfl) (hreading e he)
  | some x =>
    obtain ⟨e', he', hcall, rfl⟩ := exists_of_readingOf hreading
    rw [List.inj_on_of_nodup_map h he' he hcall]

end CallEdit

open CallEdit

variable {owner : Text} {m : Method} {a : Analysis} {c : ExpansionContext} {expanded : IndexSet} {es : List CallEdit}
  {e : CallEdit} {id : InsnId}

/-- No producer is met twice. -/
theorem Analysis.Separates.producers_nodup {e : CallEdit} {es : List CallEdit} (h : a.Separates es)
    (he : e ∈ es) (htaken : e.taken.Sublist e.args) : e.producers.Nodup := by
  have hsome : e.producers.filter (fun p => (partOf es p).isSome) = e.producers :=
    List.filter_eq_self.mpr fun p hp => partOf_isSome he hp
  rw [← hsome]
  exact (h.once e he).sublist ((htaken.flatMap producers).filter _)

/-- What is known of an analysed method before its calls are converted: the edits fit its analysis, and they do not get
in the way of what else happens. -/
structure Analysis.Prepared (a : Analysis) (owner : Text) (m : Method) (c : ExpansionContext) (expanded : IndexSet)
    (es : List CallEdit) : Prop where
  edited : a.Edited c expanded es
  separates : a.Separates es
  analysed : Analysis.ofMethod owner m = .ok a
  linked : m.code.WellLinked
  shaped : c.catalog.Shaped

namespace Analysis.Edited

variable {e' : CallEdit} {p : InsnId} (h : a.Edited c expanded es)

include h

/-- A call has one edit. -/
theorem eq_of_call (he : e ∈ es) (he' : e' ∈ es) (hcall : e.call = e'.call) : e = e' :=
  List.inj_on_of_nodup_map h.nodup he he' hcall

/-- A producer serves one edit. -/
theorem eq_of_producer (he : e ∈ es) (he' : e' ∈ es) (hp : p ∈ e.producers) (hp' : p ∈ e'.producers) : e = e' :=
  h.eq_of_call he he' ((h.user e he p hp).eq (h.user e' he' p hp'))

/-- The producers of an edit push the part that it takes. -/
theorem partOf_eq (he : e ∈ es) (hp : p ∈ e.producers) : partOf es p = some e.part := by
  obtain ⟨part, hpart⟩ := Option.isSome_iff_exists.mp (partOf_isSome he hp)
  obtain ⟨e', he', hp', rfl⟩ := exists_of_partOf hpart
  rw [hpart, h.eq_of_producer he he' hp hp']

/-- A value that an instruction uses is in parts only if the instruction is a call that takes them. -/
theorem call_of_used (ha : Analysis.ofMethod owner m = .ok a) {x : Insn} {f : Frame} {r : StepResult}
    (hmem : ((id, x), f) ∈ a.reachable) (hstep : step id.toNat x f = .ok r) {v : Value}
    (hv : v ∈ r.used) (hp : p ∈ v.producers) {part : Option Axis} (hpart : partOf es p = some part) :
    ∃ e ∈ es, p ∈ e.producers ∧ e.call = id := by
  obtain ⟨e, he, hpe, -⟩ := exists_of_partOf hpart
  have hnonneg := (Code.nonneg_of_mem_listing (step_of_mem_reachable ha hmem).1).1
  have hid : ((id.toNat : Nat) : InsnId) = id := Int.toNat_of_nonneg hnonneg
  obtain ⟨huse, hprim⟩ := (mem_used_iff hstep v).mp hv
  have huser : id.toNat ∈ a.consumersOf p :=
    mem_consumersOf.mpr <| (exists_use_iff ha _ _).mpr ⟨x, f, v, by rwa [hid], huse, hprim, mem_producers.mp hp⟩
  refine ⟨e, he, hpe, IndexSet.eq_of_size_eq_one (h.user e he p hpe).1 (h.user e he p hpe).2 ?_⟩
  rw [← hid]
  exact huser

end Analysis.Edited

/-! ## Calls that take parts -/

/-- What a call takes and gives. -/
theorem Typing.call {first : Int → Bool} {op : Opcode} {m : Member} {itf : Bool} {ks ks' : List Kind}
    {L L' : LocalKinds} (h : Typing first (.call op m itf) ks L ks' L') {t : MethodType}
    (ht : MethodType.parse m.desc = .ok t) :
    op.falls = true ∧ L' = L ∧
      ks.reverse.map some = (if op.hasReceiver then .objectClass :: t.params else t.params).map ValueType.kind? ∧
      (if t.result = .void then [] else [t.result]).map ValueType.kind? = ks'.map some := by
  have hstep : KindStep first (.call op m itf) ⟨ks, L⟩ ⟨ks', L'⟩ := ⟨ks, ks', [], by simp, by simp, h⟩
  have hfalls := hstep.falls
  have hg : (Insn.call op m itf).signature? = some ⟨if op.hasReceiver then .objectClass :: t.params else t.params,
      if t.result = .void then none else some t.result⟩ := by simp [Insn.signature?, ht, hfalls]
  obtain ⟨hlocals, -, hcall, hgives⟩ := h.of_signature hg
  refine ⟨hfalls, hlocals, hcall rfl, ?_⟩
  rw [← hgives]
  by_cases hvoid : t.result = .void <;> simp [hvoid]

/-- The parameters in parts are what the arguments are in parts. -/
theorem shapes_params {P : InsnId → Option (Option Axis)} {indices : List Int} {args : List Value}
    {ts : List ValueType} {ks : List Kind} (i : Nat) (hks : ks.map some = ts.map ValueType.kind?)
    (hlength : args.length = ts.length)
    (hparts : ∀ (j : Nat) (v : Value), args[j]? = some v →
      v.part? P = if indices.contains ((i + j : Nat) : Int) then some none else none) :
    (shapes P args ks).map some = (MethodType.splitParams indices i ts).map ValueType.kind? := by
  induction ts generalizing args ks i with
  | nil =>
    obtain rfl := List.length_eq_zero_iff.mp hlength
    rfl
  | cons t ts ih =>
    obtain ⟨κ, ks, rfl, hκ, hks⟩ := List.map_eq_cons_iff.mp hks
    cases args with
    | nil => cases hlength
    | cons v args =>
      have hrest := ih (i + 1) hks (by simpa using hlength) fun j w hw => by
        rw [show i + 1 + j = i + (j + 1) by omega]
        exact hparts (j + 1) w hw
      have hv := hparts 0 v rfl
      rw [Nat.add_zero] at hv
      rw [shapes, List.zipWith_cons_cons, List.flatten_cons, List.map_append, shape, MethodType.splitParams]
      by_cases hindex : indices.contains (i : Int) = true
      · rw [if_pos hindex] at hv ⊢
        rw [hv]
        exact congrArg (some .int :: some .int :: some .int :: ·) hrest
      · rw [if_neg hindex] at hv ⊢
        rw [hv]
        show some κ :: (shapes P args ks).map some = t.kind? :: _
        rw [← hκ, hrest]

namespace ExpansionContext

variable {receivers : Nat} {known : List Int}

/-- Where a coordinate is among the arguments. -/
theorem mem_takenArgs {k : Nat} {args : List Value} {q : Int × Value}
    (h : q ∈ takenArgs expanded receivers known k args) :
    ∃ j : Nat, args[j]? = some q.2 ∧ q.1 = ((k + j : Nat) : Int) - receivers := by
  induction args generalizing k with
  | nil => cases h
  | cons v args ih =>
    rw [takenArgs] at h
    have hrest : q ∈ takenArgs expanded receivers known (k + 1) args →
        ∃ j : Nat, (v :: args)[j]? = some q.2 ∧ q.1 = ((k + j : Nat) : Int) - receivers := by
      intro hq
      obtain ⟨j, hj, hq⟩ := ih hq
      exact ⟨j + 1, hj, by rw [hq, show k + 1 + j = k + (j + 1) by omega]⟩
    split at h
    · rcases List.mem_cons.mp h with rfl | h
      · exact ⟨0, rfl, rfl⟩
      · exact hrest h
    · exact hrest h

end ExpansionContext

/-- Among the arguments of a call, a value in parts stands in one place. -/
theorem Analysis.Separates.index_eq {es : List CallEdit} {e : CallEdit} (h : a.Separates es)
    (he : e ∈ es) {i j : Nat} {v w : Value} (hi : e.args[i]? = some v) (hj : e.args[j]? = some w) {p : InsnId}
    (hv : p ∈ v.producers) (hw : p ∈ w.producers) (hp : (partOf es p).isSome = true) : i = j := by
  have honce := h.once e he
  rw [List.filter_flatMap, List.nodup_flatMap, List.pairwise_iff_getElem] at honce
  obtain ⟨hi', rfl⟩ := List.getElem?_eq_some_iff.mp hi
  obtain ⟨hj', rfl⟩ := List.getElem?_eq_some_iff.mp hj
  have hfilter : ∀ u : Value, p ∈ u.producers → p ∈ u.producers.filter fun p => (partOf es p).isSome :=
    fun u hu => List.mem_filter.mpr ⟨hu, hp⟩
  rcases Nat.lt_trichotomy i j with hlt | heq | hlt
  · exact absurd (hfilter _ hw) (honce.2 i j hi' hj' hlt (hfilter _ hv))
  · exact heq
  · exact absurd (hfilter _ hv) (honce.2 j i hj' hi' hlt (hfilter _ hw))

namespace Analysis.Prepared

variable {op : Opcode} {member : Member} {itf : Bool} {f : Frame} (h : a.Prepared owner m c expanded es)

include h

section

variable (he : e ∈ es) (hmem : ((e.call, .call op member itf), f) ∈ a.reachable)

include he hmem

/-- What a call finds and does not take is not in parts. -/
theorem part?_of_other (hargs : f.callArgs op member = .ok e.args)
    {j : Nat} {w : Value} (hj : e.args[j]? = some w) (hother : ∀ v ∈ e.taken, ∃ i, e.args[i]? = some v ∧ i ≠ j) :
    w.part? (partOf es) = none := by
  cases hpart : w.part? (partOf es) with
  | none => rfl
  | some part =>
    obtain ⟨p, hp, hpart⟩ := exists_of_part? hpart
    obtain ⟨-, r, hstep⟩ := Analysis.step_of_mem_reachable h.analysed hmem
    have hused : r.used = e.args := Except.ok.inj ((callArgs_of_step hstep).symm.trans hargs)
    have hw : w ∈ r.used := hused ▸ List.mem_of_getElem? hj
    obtain ⟨e', he', hpe, hcall⟩ := h.edited.call_of_used h.analysed hmem hstep hw hp hpart
    obtain rfl := h.edited.eq_of_call he' he hcall
    obtain ⟨v, hv, hpv⟩ := List.mem_flatMap.mp hpe
    obtain ⟨i, hi, hne⟩ := hother v hv
    exact absurd (h.separates.index_eq he hi hj hpv hp (by rw [hpart]; rfl)) hne

variable (hedits : c.Edits expanded op member itf f e)

include hedits

/-- What an edit takes is in parts. -/
theorem part?_of_taken {v : Value} (hv : v ∈ e.taken) (hwide : v.isWide = true) :
    v.part? (partOf es) = some e.part := by
  have hstack := hedits.taken_mem v hv
  obtain ⟨p, rest, hp⟩ := List.exists_cons_of_ne_nil (Analysis.stack_made h.analysed h.linked hmem hstack).nonempty
  have hpv : p ∈ v.producers := by simp [hp]
  rw [(h.separates.alike _ _ _ hmem v hstack).part?_eq hpv hwide]
  exact h.edited.partOf_eq he (List.mem_flatMap.mpr ⟨v, hv, hpv⟩)

variable (hpart : e.part = none) (hargs : f.callArgs op member = .ok e.args)
  (htaken : e.taken = (c.taken expanded op member e.args).map Prod.snd)

include hpart hargs htaken

/-- An argument of a converted call is in parts iff the parameter at its place is split. -/
theorem part?_of_arg (hwide : ∀ (j : Nat) (v : Value), e.args[j]? = some v →
      (j : Int) - (if op.hasReceiver then 1 else 0 : Nat) ∈ (c.taken expanded op member e.args).map Prod.fst →
      v.isWide = true) {j : Nat} {v : Value} (hj : e.args[j]? = some v) :
    v.part? (partOf es) = if ((c.taken expanded op member e.args).map Prod.fst).contains
      ((j : Int) - (if op.hasReceiver then 1 else 0 : Nat)) then some none else none := by
  by_cases hindex : (j : Int) - (if op.hasReceiver then 1 else 0 : Nat) ∈
      (c.taken expanded op member e.args).map Prod.fst
  · rw [if_pos (List.contains_iff_mem.mpr hindex), ← hpart]
    refine h.part?_of_taken he hmem hedits ?_ (hwide j v hj hindex)
    obtain ⟨q, hq, hfst⟩ := List.mem_map.mp hindex
    obtain ⟨i, hi, hqi⟩ := ExpansionContext.mem_takenArgs hq
    obtain rfl : i = j := by
      rw [hfst] at hqi
      omega
    rw [htaken, List.mem_map]
    exact ⟨q, hq, Option.some.inj (hi.symm.trans hj)⟩
  · rw [if_neg (fun hcontains => hindex (List.contains_iff_mem.mp hcontains))]
    refine h.part?_of_other he hmem hargs hj fun w hw => ?_
    rw [htaken] at hw
    obtain ⟨q, hq, rfl⟩ := List.mem_map.mp hw
    obtain ⟨i, hi, hqi⟩ := ExpansionContext.mem_takenArgs hq
    refine ⟨i, hi, ?_⟩
    rintro rfl
    refine hindex (List.mem_map.mpr ⟨q, hq, ?_⟩)
    rw [hqi, Nat.zero_add]

/-- What a converted call finds is, in parts, what the call in its place takes. -/
theorem shapes_args {t g : MethodType} {ks : List Kind} (hparams : ∀ q ∈ c.taken expanded op member e.args, 0 ≤ q.1)
    (ht : MethodType.parse member.desc = .ok t) (hsplit : t.split ((c.taken expanded op member e.args).map Prod.fst) = .ok g)
    (hks : ks.map some = (if op.hasReceiver then .objectClass :: t.params else t.params).map ValueType.kind?)
    (hkinds : e.args.map kind? = ks.map some) :
    (shapes (partOf es) e.args ks).map some =
      (if op.hasReceiver then .objectClass :: g.params else g.params).map ValueType.kind? := by
  obtain ⟨t', rest, ht', -, hlength⟩ := ExpansionContext.stack_of_callArgs hargs
  obtain rfl := Except.ok.inj (ht.symm.trans ht')
  have hwide : ∀ (j : Nat) (v : Value), e.args[j]? = some v →
      (j : Int) - (if op.hasReceiver then 1 else 0 : Nat) ∈ (c.taken expanded op member e.args).map Prod.fst →
      v.isWide = true := by
    intro j v hj hindex
    obtain ⟨k, hk, hlong⟩ := MethodType.long_of_split hsplit hindex
    have hkind := congrArg (·[j]?) (hkinds.trans hks)
    obtain rfl : j = k + (if op.hasReceiver then 1 else 0) := by omega
    have hparam : (if op.hasReceiver then .objectClass :: t.params else t.params)[k + if op.hasReceiver then 1 else 0]?
        = some .long := by
      split
      · exact hlong
      · exact hlong
    simp only [List.getElem?_map, hj, hparam, Option.map_some, Option.some.injEq] at hkind
    exact isWide_eq_of_kind? hkind
  have hparts := fun j v hj => h.part?_of_arg he hmem hedits hpart hargs htaken hwide (j := j) (v := v) hj
  rw [MethodType.split_params hsplit]
  cases hreceiver : op.hasReceiver with
  | false =>
    simp only [hreceiver, Bool.false_eq_true, if_false, Nat.add_zero] at hks hlength hparts ⊢
    refine shapes_params 0 hks hlength fun j v hj => ?_
    rw [hparts j v hj, Nat.zero_add, Nat.cast_zero, Int.sub_zero]
  | true =>
    simp only [hreceiver, if_true] at hks hlength hparts ⊢
    obtain ⟨κ, ks, rfl, hκ, hks⟩ := List.map_eq_cons_iff.mp hks
    obtain ⟨v, args, hcons⟩ := List.exists_cons_of_length_eq_add_one hlength
    rw [hcons] at hlength hparts hparams ⊢
    have hv : v.part? (partOf es) = none := by
      rw [hparts 0 v rfl, if_neg]
      intro hcontains
      obtain ⟨q, hq, hneg⟩ := List.mem_map.mp (List.contains_iff_mem.mp hcontains)
      have hnonneg := hparams q hq
      rw [hneg] at hnonneg
      exact absurd hnonneg (by decide)
    have hrest : (shapes (partOf es) args ks).map some = _ :=
      shapes_params 0 hks (by simpa using hlength) fun j w hj => by
        rw [hparts (j + 1) w hj]
        congr 3
        omega
    rw [shapes, List.zipWith_cons_cons, List.flatten_cons, List.map_append, shape, hv]
    show some κ :: (shapes (partOf es) args ks).map some = ValueType.objectClass.kind? :: _
    rw [← hκ, hrest]

end

end Analysis.Prepared

/-! ## Lines in their roles -/

/-- A line that was reached takes the values `vs` off the stack of its frame and leaves `vs'` there, and the rules say
so of their kinds. -/
structure Analysis.Passes (a : Analysis) (id : InsnId) (x : Insn) (f : Frame) (r : StepResult) (vs vs' vrest : List Value)
    (ks ks' : List Kind) (L L' : LocalKinds) : Prop where
  mem : ((id, x), f) ∈ a.reachable
  stack : f.stack = vs ++ vrest
  kinds : vs.map kind? = ks.map some
  left : vs'.map kind? = ks'.map some
  typing : Typing (fun _ => false) x ks L ks' L'
  step : step id.toNat x f = .ok r
  handles : Step.Handles id.toNat x vs vs' r.used

theorem Analysis.reachable_nodup {owner : Text} (ha : Analysis.ofMethod owner m = .ok a)
    (hm : m.code.WellLinked) : (a.reachable.map fun l => l.1.1).Nodup := by
  have hids : (a.reachable.map fun l => l.1.1) = (a.reachable.map Prod.fst).map Prod.fst := by simp
  rw [hids]
  exact hm.nodup.sublist ((reachable_sublist ha).map Prod.fst)

theorem Analysis.reachable_unique {owner : Text} (ha : Analysis.ofMethod owner m = .ok a)
    (hm : m.code.WellLinked) {x x' : Insn} {f f' : Frame} (h : ((id, x), f) ∈ a.reachable)
    (h' : ((id, x'), f') ∈ a.reachable) : x = x' ∧ f = f' := by
  have heq := List.inj_on_of_nodup_map (Analysis.reachable_nodup ha hm) h h' rfl
  exact ⟨congrArg (·.1.2) heq, congrArg (·.2) heq⟩

namespace Analysis.Prepared

variable {op : Opcode} {member : Member} {itf : Bool} {f : Frame} {r : StepResult} {vs vs' vrest : List Value}
  {ks ks' : List Kind} {L L' : LocalKinds} {id : InsnId} {x : Insn} (h : a.Prepared owner m c expanded es)

include h

section

variable (he : e ∈ es) (hedits : c.Edits expanded op member itf f e)
  (hpass : a.Passes e.call (.call op member itf) f r vs vs' vrest ks ks' L L')

include he hedits hpass

/-- A call that takes an axis finds the part in place of the coordinate. -/
theorem kindStep_unpack {axis : Axis}
    (haxis : c.catalog.unpackAxis? member = some axis) (hpart : e.part = some axis) {v : Value} (htaken : e.taken = [v])
    {rest : List Value} (hstack : f.stack = v :: rest) (S : List Kind) :
    KindStep (fun _ => false) .label ⟨shapes (partOf es) vs ks ++ S, L⟩ ⟨ks' ++ S, L'⟩ := by
  have hop : op = .invokestatic := (h.edited.fits e he op member itf f hpass.mem).unpack (by rw [haxis]; rfl)
  have hdesc : MethodType.parse member.desc = .ok ⟨[.long], .int⟩ := by
    rw [h.shaped.unpackAxis?_desc haxis]
    exact parse_unpackDesc
  obtain ⟨-, rfl, htakes, hgives⟩ := hpass.typing.call hdesc
  rw [hop] at htakes
  obtain rfl : ks = [.long] := by
    rw [← ks.reverse_reverse, map_some_injective (htakes.trans (rfl : _ = [Kind.long].map some))]
    rfl
  obtain rfl : ks' = [.int] := map_some_injective (hgives.symm.trans rfl)
  obtain ⟨w, rfl, hw⟩ : ∃ w, vs = [w] ∧ w.kind? = some .long := by simpa [List.map_eq_cons_iff] using hpass.kinds
  obtain ⟨rfl, -⟩ := List.cons.inj (hstack.symm.trans hpass.stack)
  have hwide := isWide_eq_of_kind? hw
  have hv := h.part?_of_taken he hpass.mem hedits (v := v) (by simp [htaken]) hwide
  have hshape : shapes (partOf es) [v] [.long] = [.int] := by
    simp [shapes, shape, hv, hpart, partKinds]
  rw [hshape]
  exact kindStep_regular [] [] (g := ⟨[], none⟩) rfl rfl rfl _ _

/-- A converted call can be read as what becomes of it. -/
theorem kindStep_converted (S : List Kind) :
    KindStep (fun _ => false) e.reads ⟨shapes (partOf es) vs ks ++ S, L⟩ ⟨ks' ++ S, L'⟩ := by
  cases hcases : hedits with
  | unpack haxis hstack => exact h.kindStep_unpack he hedits hpass haxis rfl rfl hstack S
  | @args id args t g target _ _ hargs _ hparams ht hsplit htarget =>
    have hg : MethodType.parse target.desc = .ok g := by
      rw [htarget]
      exact MethodType.parse_desc ((MethodType.writable_of_parse ht).split hsplit)
    obtain ⟨hfalls, rfl, htakes, hgives⟩ := hpass.typing.call ht
    obtain ⟨t', rest, ht', hstack, hlength⟩ := ExpansionContext.stack_of_callArgs hargs
    obtain rfl := Except.ok.inj (ht.symm.trans ht')
    -- the arguments are what the rules take
    obtain ⟨rfl, -⟩ : args.reverse = vs ∧ rest = vrest := by
      refine List.append_inj (hstack.symm.trans hpass.stack) ?_
      have hvs := congrArg List.length hpass.kinds
      have hks := congrArg List.length htakes
      simp only [List.length_map, List.length_reverse] at hvs hks ⊢
      rw [hlength, hvs, hks]
      split <;> simp
    have hkinds : args.map kind? = ks.reverse.map some := by
      rw [List.map_reverse, ← hpass.kinds, List.map_reverse, List.reverse_reverse]
    have hshapes := h.shapes_args he hpass.mem hedits rfl hargs rfl hparams ht hsplit htakes hkinds
    have hreverse : shapes (partOf es) args.reverse ks =
        (shapes (partOf es) args ks.reverse).reverse := by
      rw [← shapes_reverse (by simpa using congrArg List.length hkinds), List.reverse_reverse]
    have hresult : g.result = t.result := by
      obtain ⟨-, -, hsplit⟩ := except_bind_ok.mp hsplit
      rw [← Except.ok.inj hsplit]
    rw [hreverse]
    exact (kindStep_call_iff hfalls hg _ ks' hshapes.symm (by rw [hresult]; exact hgives)).mpr ⟨S, rfl, rfl⟩

end

variable (hpass : a.Passes id x f r vs vs' vrest ks ks' L L')

include hpass

theorem toNat_id : ((id.toNat : Nat) : InsnId) = id :=
  Int.toNat_of_nonneg (Code.nonneg_of_mem_listing (Analysis.step_of_mem_reachable h.analysed hpass.mem).1).1

/-- What a line takes that is not a converted call is not in parts. -/
theorem part?_of_plain (hreading : readingOf es id = none) :
    ∀ v ∈ vs, v.part? (partOf es) = none := by
  have hhandles := hpass.handles
  generalize hused : r.used = used at hhandles
  cases hhandles with
  | consumes huse _ =>
    intro v hv
    refine part?_eq_none fun p hp => ?_
    cases hpart : partOf es p with
    | none => rfl
    | some part =>
      obtain ⟨e, he, -, rfl⟩ :=
        h.edited.call_of_used h.analysed hpass.mem hpass.step (hused ▸ huse v hv) hp hpart
      rw [readingOf_eq h.edited.nodup he] at hreading
      cases hreading
  | moves hx hmove =>
    subst hx
    exact fun v hv => part?_eq_none (h.separates.unmoved _ _ _ hpass.mem _ _ _ hpass.stack hmove v hv)
  | @measures value v v' hx _ =>
    subst hx
    intro w hw
    obtain rfl := List.mem_singleton.mp hw
    -- the length of an array takes one word
    have hsizes := size_eq_of_kinds hpass.kinds
    cases hpass.typing with
    | @regular _ g takes _ _ hg htakes _ _ =>
      obtain ⟨t, -, rfl⟩ : ∃ t, arrayElementType? value = some t ∧ g = ⟨[.int], some (.array t)⟩ := by
        simpa [Insn.signature?, Option.map_eq_some_iff, eq_comm] using hg
      rw [List.map_reverse, htakes] at hsizes
      apply part?_of_narrow
      have hsize : w.size = ValueType.int.size := by simpa using hsizes
      rw [isWide, hsize]
      rfl

/-- What a line finds, with longs in parts where their producers push parts, is what it takes in its role. -/
theorem kindStep_reads (S : List Kind) :
    KindStep (fun _ => false) ((readingOf es id).getD x) ⟨shapes (partOf es) vs ks ++ S, L⟩
      ⟨ks' ++ S, L'⟩ := by
  cases hreading : readingOf es id with
  | some y =>
    obtain ⟨e, he, rfl, rfl⟩ := exists_of_readingOf hreading
    obtain ⟨op, member, itf, f', hmem, hedits⟩ := h.edited.call e he
    obtain ⟨rfl, rfl⟩ := Analysis.reachable_unique h.analysed h.linked hpass.mem hmem
    exact h.kindStep_converted he hedits hpass S
  | none =>
    rw [shapes_of_none (by simpa using congrArg List.length hpass.kinds) (h.part?_of_plain hpass hreading)]
    exact ⟨ks, ks', S, rfl, rfl, hpass.typing⟩

/-- A line that has no part to push pushes what it pushes. -/
theorem shapes_of_whole (hpart : partOf es id = none) : shapes (partOf es) vs' ks' = ks' := by
  have hid := h.toNat_id hpass
  have hnew : ∀ v : Value, v.prod = .singleton id.toNat → v.part? (partOf es) = none := by
    intro v hv
    refine part?_eq_none fun p hp => ?_
    rw [producers_of_singleton hv, List.mem_singleton] at hp
    rw [hp, hid, hpart]
  refine shapes_of_none (by simpa using congrArg List.length hpass.left) fun v hv => ?_
  have hhandles := hpass.handles
  generalize r.used = used at hhandles
  cases hhandles with
  | consumes _ hproduced => exact hnew v (hproduced v hv)
  | moves hx hmove =>
    subst hx
    exact part?_eq_none (h.separates.unmoved _ _ _ hpass.mem _ _ _ hpass.stack hmove v (hmove.mem hv))
  | measures _ hproduced => exact hnew v (List.mem_singleton.mp hv ▸ hproduced)

/-- A line that has parts to push pushes a long, and nothing else. -/
theorem shapes_of_part {S : List Kind}
    (hreads : KindStep (fun _ => false) ((readingOf es id).getD x) ⟨S, L⟩ ⟨ks', L'⟩)
    {part : Option Axis} (hpart : partOf es id = some part) :
    ks' = [.long] ∧ shapes (partOf es) vs' ks' = partKinds part := by
  obtain ⟨e, he, hp, -⟩ := exists_of_partOf hpart
  obtain ⟨hplain, hlong⟩ := h.edited.pushes e he id hp x f hpass.mem
  obtain rfl : ks' = [.long] := by
    cases hreading : readingOf es id with
    | none =>
      rw [hreading] at hlong
      exact hlong _ _ _ _ _ hpass.typing
    | some y =>
      -- a call gives one value at most, and what it is read as gives the same
      obtain ⟨e', he', rfl, -⟩ := exists_of_readingOf hreading
      obtain ⟨op, member, itf, f', hmem, -⟩ := h.edited.call e' he'
      obtain ⟨rfl, -⟩ := Analysis.reachable_unique h.analysed h.linked hpass.mem hmem
      obtain ⟨top, gives, rest, -, hgives, htyping⟩ := hreads
      rw [hlong _ _ _ _ _ htyping] at hgives
      cases hpass.typing with
      | @regular _ g _ _ _ _ _ _ hresult =>
        have hlength := congrArg List.length hresult
        have hone : g.gives.toList.length ≤ 1 := by cases g.gives <;> simp
        rw [show ks' = .long :: rest from hgives] at hlength ⊢
        obtain rfl : rest = [] := by
          simp only [List.length_map, List.length_cons] at hlength
          exact List.length_eq_zero_iff.mp (by omega)
        rfl
  refine ⟨rfl, ?_⟩
  obtain ⟨v, rfl, hv⟩ : ∃ v, vs' = [v] ∧ v.kind? = some .long := by simpa [List.map_eq_cons_iff] using hpass.left
  have hprod : v.prod = .singleton id.toNat := by
    have hhandles := hpass.handles
    generalize r.used = used at hhandles
    cases hhandles with
    | consumes _ hproduced => exact hproduced v (by simp)
    | moves hx => exact absurd hx (hplain _)
    | measures _ hproduced => exact hproduced
  have hwide : v.isWide = true := isWide_eq_of_kind? hv
  have hshape : v.part? (partOf es) = some part := by
    rw [part?, if_pos hwide, producers_of_singleton hprod, h.toNat_id hpass]
    simp [hpart]
  simp [shapes, shape, hshape]

/-- What holds of a line holds of it in its role, with longs in parts where their producers push parts. -/
theorem roleStep (S : List Kind) :
    RoleStep (fun _ => false) (roleOf es id) x ⟨shapes (partOf es) vs ks ++ S, L⟩
      ⟨shapes (partOf es) vs' ks' ++ S, L'⟩ := by
  have hreads := h.kindStep_reads hpass
  rw [RoleStep, roleOf]
  cases hpart : partOf es id with
  | none =>
    rw [h.shapes_of_whole hpass hpart]
    exact hreads S
  | some part =>
    have hempty := hreads []
    rw [List.append_nil, List.append_nil] at hempty
    obtain ⟨rfl, hshape⟩ := h.shapes_of_part hpass hempty hpart
    exact ⟨S, hreads S, by rw [hshape]⟩

end Analysis.Prepared

/-! ## The table -/

/-- A handler covers what stands between the labels of its range. -/
theorem FlowState.covers_of_mem {h : Handler} (hm : m.code.WellLinked) {pre post : List (InsnId × Insn)}
    {x : Insn} (hlisting : m.code.listing = pre ++ (id, x) :: post)
    (hstart : h.start ∈ pre.map Prod.fst ++ [id]) (hstop : h.stop ∈ post.map Prod.fst) :
    covers (.ofMethod m) h pre.length = true := by
  have hids : m.code.listing.map Prod.fst = pre.map Prod.fst ++ [id] ++ post.map Prod.fst := by simp [hlisting]
  have hlength : (pre.map Prod.fst ++ [id]).length = pre.length + 1 := by simp
  obtain ⟨i, hi⟩ := List.getElem?_of_mem hstart
  obtain ⟨j, hj⟩ := List.getElem?_of_mem hstop
  have hlt : i < pre.length + 1 := hlength ▸ (List.getElem?_eq_some_iff.mp hi).1
  have hfirst : (Layout.ofMethod m).position? h.start = some i := by
    rw [Layout.position?_eq_some_iff hm, hids, List.getElem?_append_left (by omega), hi]
  have hlast : (Layout.ofMethod m).position? h.stop = some (pre.length + 1 + j) := by
    rw [Layout.position?_eq_some_iff hm, hids, List.getElem?_append_right (by omega), hlength, Nat.add_sub_cancel_left,
      hj]
  rw [covers, hfirst, hlast]
  simp only [Bool.and_eq_true, decide_eq_true_eq]
  omega

theorem FlowState.Explores.size {l : Layout} {s s' : FlowState} (h : Explores l s s') :
    s'.frames.size = s.frames.size := by
  induction h with
  | refl => rfl
  | visit _ _ hvisit ih =>
    obtain ⟨id, x, f, r, -, -, -, hsends, -⟩ := visit_ok hvisit
    exact hsends.extends.size.trans ih

namespace Analysis

variable {p : Nat} {x : Insn} {f : Frame}

variable (ha : ofMethod owner m = .ok a)

include ha

/-- Only positions of the code have frames. -/
theorem line_of_known (hf : a.known p = some f) :
    ∃ id x, m.code.listing[p]? = some (id, x) := by
  have hbefore : a.before[p]? = some (some f) := Option.join_eq_some_iff.mp hf
  by_cases hcode : m.code.listing = []
  · simp only [ofMethod, Layout.ofMethod, hcode] at ha
    rw [if_pos (by rfl)] at ha
    obtain rfl := Except.ok.inj ha
    simp at hbefore
  · obtain ⟨params, hparams⟩ := (ofMethod_ok ha).2.1 hcode
    obtain ⟨s, hexplores, -, hframes⟩ := ofMethod_explores ha hparams hcode
    have hlt : p < m.code.listing.length := by
      have hsize := hexplores.size
      have := (Array.getElem?_eq_some_iff.mp hbefore).1
      simp only [FlowState.start, Array.size_setIfInBounds, Array.size_replicate, Layout.ofMethod,
        List.size_toArray] at hsize
      rwa [hframes, hsize] at this
    exact ⟨_, _, List.getElem?_eq_getElem hlt⟩

theorem mem_reachable_of_known (hline : m.code.listing[p]? = some (id, x))
    (hf : a.known p = some f) : ((id, x), f) ∈ a.reachable := by
  refine mem_reachable_iff.mpr (List.mem_of_getElem? (i := p) (List.getElem?_zip_eq_some.mpr ⟨?_, ?_⟩))
  · simpa [(ofMethod_ok ha).1, Layout.ofMethod] using hline
  · simpa using Option.join_eq_some_iff.mp hf

theorem usable_of_fits {T : TypeTable} (hfits : a.FitsTable T) : a.known.Usable := by
  intro p f hf v hv htop
  obtain ⟨id, x, hline⟩ := line_of_known ha hf
  obtain ⟨t, -, hfit⟩ := hfits id x f (mem_reachable_of_known ha hline hf)
  have hkind : v.kind? ∈ t.stack.map some := hfit.stack ▸ List.mem_map_of_mem hv
  rw [kind?, htop] at hkind
  obtain ⟨κ, -, hκ⟩ := List.mem_map.mp hkind
  cases hκ

theorem frame?_eq_some_iff (hm : m.code.WellLinked) :
    a.frame? id = some f ↔ ∃ p, (m.code.listing.map Prod.fst)[p]? = some id ∧ a.known p = some f := by
  have hframe : a.frame? id = ((Layout.ofMethod m).position? id).bind a.known := by
    rw [frame?, (ofMethod_ok ha).1]
    rfl
  simp only [hframe, Option.bind_eq_some_iff, Layout.position?_eq_some_iff hm]

/-- The frame of an instruction is the one before its position. -/
theorem known_of_frame? (hm : m.code.WellLinked)
    (hline : m.code.listing[p]? = some (id, x)) (hf : a.frame? id = some f) : a.known p = some f := by
  obtain ⟨q, hq, hknown⟩ := (frame?_eq_some_iff ha hm).mp hf
  have hq' := (Layout.position?_eq_some_iff hm id q).mpr hq
  have hp := (Layout.position?_eq_some_iff hm id p).mpr (by simp [hline])
  rwa [← Option.some.inj (hq'.symm.trans hp)]

end Analysis

/-- The table for the code in which producers push parts. -/
def TypeTable.shaped (T : TypeTable) (a : Analysis) (P : InsnId → Option (Option Axis)) : TypeTable := fun id =>
  (a.frame? id).bind fun f => (T id).map fun t => ⟨shapes P f.stack t.stack, t.locals⟩

theorem TypeTable.shaped_eq_some_iff {T : TypeTable} {P : InsnId → Option (Option Axis)}
    {u : FrameType} : T.shaped a P id = some u ↔
      ∃ f t, a.frame? id = some f ∧ T id = some t ∧ u = ⟨shapes P f.stack t.stack, t.locals⟩ := by
  simp only [shaped, Option.bind_eq_some_iff, Option.map_eq_some_iff]
  constructor
  · rintro ⟨f, hf, t, ht, rfl⟩
    exact ⟨f, t, hf, ht, rfl⟩
  · rintro ⟨f, t, hf, ht, rfl⟩
    exact ⟨f, hf, t, ht, rfl⟩

namespace Analysis.Prepared

variable {T : TypeTable} (h : a.Prepared owner m c expanded es)

include h

/-- Where a frame arrives that the analysis covers, its shapes do. -/
theorem admits {q : InsnId} {k : Nat} {f g : Frame} {t : FrameType} (hadmits : T.Admits q t)
    (hq : (m.code.listing.map Prod.fst)[k]? = some q)
    (hg : a.known k = some g) (hcovers : g.CoversEvenly f) (hmade : ∀ v ∈ f.stack, v.producers ≠ []) :
    (T.shaped a (partOf es)).Admits q ⟨shapes (partOf es) f.stack t.stack, t.locals⟩ := by
  obtain ⟨u, hu, hrefines⟩ := hadmits
  obtain ⟨x, hline⟩ : ∃ x, m.code.listing[k]? = some (q, x) := by
    simpa [List.getElem?_map, Option.map_eq_some_iff] using hq
  have halike := h.separates.alike q x g (Analysis.mem_reachable_of_known h.analysed hline hg)
  have hparts : List.Forall₂ (fun v w => part? (partOf es) v = part? (partOf es) w)
      f.stack g.stack := by
    have hstack := hcovers.stack
    generalize f.stack = vs, g.stack = ws at hstack halike hmade
    induction hstack with
    | nil => exact .nil
    | cons hle _ ih =>
      exact .cons ((halike _ (by simp)).part?_of_below hle (hmade _ (by simp)))
        (ih (fun w hw => halike w (by simp [hw])) fun v hv => hmade v (by simp [hv]))
  refine ⟨⟨shapes (partOf es) g.stack u.stack, u.locals⟩, ?_, ?_, hrefines.locals⟩
  · exact TypeTable.shaped_eq_some_iff.mpr
      ⟨g, u, (Analysis.frame?_eq_some_iff h.analysed h.linked).mpr ⟨k, hq, hg⟩, hu, rfl⟩
  · show shapes _ _ _ = shapes _ _ _
    rw [hrefines.stack, shapes_congr hparts]

theorem closed (hfits : a.FitsTable T) : m.Closed owner a.known :=
  Analysis.closed_known h.analysed (Analysis.usable_of_fits h.analysed hfits)

/-- The code can be entered with the same as before, since the stack is empty then. -/
theorem entry (hfits : a.FitsTable T) {params : List ValueType}
    (hparams : m.params owner = .ok params) {p : InsnId × Insn} {rest : List (InsnId × Insn)}
    (hlisting : m.code.listing = p :: rest) (hadmits : T.Admits p.1 (.entry params)) :
    (T.shaped a (partOf es)).Admits p.1 (.entry params) := by
  obtain ⟨g, hg, hcovers⟩ := (h.closed hfits).entry params hparams
    (by simp [hlisting])
  exact h.admits (k := 0) hadmits (by simp [hlisting]) hg hcovers (by simp [Analysis.entry])

/-- A table for the code is one for the code with roles, with longs in parts where their producers push parts. -/
theorem typed (hT : Typed (fun _ => KindStep fun _ => false) m.handlers m.code.listing T) (hfits : a.FitsTable T) :
    Typed (fun id => RoleStep (fun _ => false) (roleOf es id)) m.handlers m.code.listing
      (T.shaped a (partOf es)) := by
  have ha := h.analysed
  have hm := h.linked
  refine ⟨?_, ?_⟩
  · intro id u hu
    obtain ⟨f, t, hf, ht, -⟩ := TypeTable.shaped_eq_some_iff.mp hu
    exact hT.support id t ht
  · intro pre id x post hlisting u hu
    obtain ⟨f, t, hf, ht, rfl⟩ := TypeTable.shaped_eq_some_iff.mp hu
    have hline : m.code.listing[pre.length]? = some (id, x) := by simp [hlisting]
    have hknown := Analysis.known_of_frame? ha hm hline hf
    have hmem := Analysis.mem_reachable_of_known ha hline hknown
    obtain ⟨t₁, ht₁, hfit⟩ := hfits id x f hmem
    obtain rfl := Option.some.inj (ht.symm.trans ht₁)
    obtain ⟨t', ⟨ks, ks', rest, hks, hks', htyping⟩, htargets, hfalls, hcatch⟩ := hT.line pre id x post hlisting t ht
    -- what the analysis finds before and after the line
    have hstack := hfit.stack
    rw [hks, List.map_append] at hstack
    obtain ⟨vs, vrest, hvs, hkinds, hrest⟩ := List.map_eq_append_iff.mp hstack
    obtain ⟨vs', locals, used, hstep, hkinds', hlocals, hhandles⟩ := htyping.execute hvs hkinds hfit.locals id.toNat
    obtain ⟨r, hr, hflows⟩ := (h.closed hfits).step pre.length id x f hline hknown
    obtain rfl := Except.ok.inj (hr.symm.trans hstep)
    have hmade : ∀ v ∈ vs' ++ vrest, v.producers ≠ [] := by
      intro v hv
      rcases mem_stack_of_step hstep hv with hv | hv
      · exact (Analysis.stack_made ha hm hmem hv).nonempty
      · simp [producers_of_singleton hv]
    have hrole := h.roleStep ⟨hmem, hvs, hkinds, hkinds', htyping, hstep, hhandles⟩
      (shapes (partOf es) vrest rest)
    rw [← shapes_append (by simpa using congrArg List.length hkinds),
      ← shapes_append (by simpa using congrArg List.length hkinds'), ← hvs, ← hks, ← hks'] at hrole
    have hposition : ∀ {q t}, T.Admits q t → ∃ k : Nat, (m.code.listing.map Prod.fst)[k]? = some q := by
      rintro q t ⟨u, hu, -⟩
      exact List.getElem?_of_mem (hT.support q u hu)
    refine ⟨_, hrole, ?_, ?_, ?_⟩
    · intro q hq
      obtain ⟨k, hk⟩ := hposition (htargets q hq)
      obtain ⟨g, hg, hcovers⟩ := hflows k _ (.branch hq ((Layout.position?_eq_some_iff hm q k).mpr hk))
      exact h.admits (htargets q hq) hk hg hcovers hmade
    · intro hfall
      obtain ⟨q, rest', hpost, hadmits⟩ := hfalls hfall
      obtain ⟨g, hg, hcovers⟩ := hflows _ _ (.next hfall)
      have hq : (m.code.listing.map Prod.fst)[pre.length + 1]? = some q.1 := by simp [hlisting, hpost]
      exact ⟨q, rest', hpost, h.admits hadmits hq hg hcovers hmade⟩
    · intro e he hstart hstop
      have hraised := FlowState.covers_of_mem hm hlisting hstart hstop
      -- what is thrown takes one word, so it is never in parts
      have hcatches : ∀ before, before = f.locals ∨ before = locals → ∀ L, T.Catches e L →
          (T.shaped a (partOf es)).Catches e L := by
        intro before hbefore L hcatches
        obtain ⟨k, hk⟩ := hposition hcatches
        obtain ⟨g, hg, hcovers⟩ := hflows k _ (.raise he hraised
          ((Layout.position?_eq_some_iff hm e.handler k).mpr hk) hbefore)
        have hadmits := h.admits hcatches hk hg hcovers (by
          intro v hv
          obtain rfl := List.mem_singleton.mp hv
          simp)
        rwa [shapes_of_none rfl fun v hv => part?_of_narrow ?_] at hadmits
        obtain rfl := List.mem_singleton.mp hv
        split <;> rfl
      exact ⟨hcatches _ (.inl rfl) _ (hcatch e he hstart hstop).1, hcatches _ (.inr rfl) _ (hcatch e he hstart hstop).2⟩

end Analysis.Prepared

end CoordSplit
