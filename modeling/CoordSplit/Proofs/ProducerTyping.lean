import CoordSplit.Proofs.PatternTyping
import CoordSplit.Proofs.SharedProducers

/-!
# Typing of changed producers

`ExpansionContext.Emits` lists what takes the place of a producer that is changed to push parts. If a typed code has
a line whose role is to push the parts of the long that it pushes, the line can be changed so that it does
(`Staged.convertProducer`), and a line that is read as another call can be changed to that call (`Staged.setCall`) or
taken out if it is read as nothing (`Staged.removeCall`). Step by step the roles turn into code.
-/

set_option autoImplicit false

namespace CoordSplit

open Code

/-! ## What takes the place of a producer -/

/-- An instruction that is there has its place in the code. -/
theorem Code.WellLinked.exists_split {code : Code} (h : code.WellLinked) {p : InsnId} {x : Insn}
    (hx : code.state? p = some (x, false)) : ∃ pre post, code.Holds (pre ++ (p, x) :: post) := by
  have hmem : p ∈ code.listing.map Prod.fst := (h.isLive_iff p).mp (isLive_of_state? hx)
  obtain ⟨⟨p', y⟩, hline, rfl⟩ := List.mem_map.mp hmem
  obtain rfl : x = y := by
    have hy := (nonneg_of_mem_listing hline).2
    exact Option.some.inj ((get?_of_state? hx).symm.trans hy)
  obtain ⟨pre, post, hsplit⟩ := List.append_of_mem hline
  rw [Code.WellLinked, hsplit] at h
  exact ⟨pre, post, h⟩

namespace ExpansionContext

variable {c : ExpansionContext} {code d : Code} {p : InsnId} {x : Insn} {part : Option Axis}
  {pre post : List (InsnId × Insn)}

/-- The lines that take the place of the producer `p` when it is changed to push one part or all parts of its
coordinate, where `n` is the first id that is free. -/
inductive Emits (c : ExpansionContext) (p : InsnId) (n : Nat) : Insn → Option Axis → List (InsnId × Insn) → Prop
  | narrow {x : Insn} {axis : Axis} (hx : c.isOperand x = true) : Emits c p n x (some axis) [(p, c.narrow x axis)]
  | parts {x : Insn} (hx : c.isOperand x = true) :
      Emits c p n x none (numbered n [c.narrow x .x, c.narrow x .y] ++ [(p, c.narrow x .z)])
  | keep {m : Member} {itf : Bool} {e : Entry} {axis : Axis} (he : c.catalog.lookup m = some e)
      (hpack : e.pack = true) : Emits c p n (.call .invokestatic m itf) (some axis)
        (numbered n ((keepOne axis).1.map .plain) ++ [(p, .plain (keepOne axis).2)])
  | vanish {m : Member} {itf : Bool} {e : Entry} (he : c.catalog.lookup m = some e) (hpack : e.pack = true) :
      Emits c p n (.call .invokestatic m itf) none []
  | accessor {op : Opcode} {m : Member} {itf : Bool} {e : Entry} {axis : Axis} (he : c.catalog.lookup m = some e)
      (haxes : e.axes.isSome = true) :
      Emits c p n (.call op m itf) (some axis) [(p, .ofAccessor (e.axisMember axis))]
  | accessors {op : Opcode} {m : Member} {itf : Bool} {e : Entry} (he : c.catalog.lookup m = some e)
      (haxes : e.axes.isSome = true) :
      Emits c p n (.call op m itf) none
        (numbered n (keepReceiver e .x ++ keepReceiver e .y) ++ [(p, .ofAccessor (e.axisMember .z))])

section

variable (h : code.Holds (pre ++ (p, x) :: post))

include h

theorem set_holds {y : Insn} (hd : code.set p y = .ok d) :
    d.Holds (pre ++ [(p, y)] ++ post) ∧ code.nodes.size = d.nodes.size := by
  obtain ⟨d', hd', hheld, hsize⟩ := h.set y
  obtain rfl := Except.ok.inj (hd'.symm.trans hd)
  exact ⟨by simpa using hheld, hsize.symm⟩

theorem remove_holds (hx : x.isLabel = false) (hd : code.remove p = .ok d) :
    d.Holds (pre ++ [] ++ post) ∧ code.nodes.size = d.nodes.size := by
  obtain ⟨d', hd', hheld, hsize⟩ := h.remove hx
  obtain rfl := Except.ok.inj (hd'.symm.trans hd)
  exact ⟨by simpa using hheld, hsize.symm⟩

theorem becomes_holds {before : List Insn} {last : Insn} (hd : becomes code p before last = .ok d) :
    d.Holds (pre ++ (numbered code.nodes.size before ++ [(p, last)]) ++ post) ∧
      code.nodes.size ≤ d.nodes.size := by
  obtain ⟨d₁, hd₁, hheld, hsize⟩ := h.insertBefore before
  rw [becomes, hd₁] at hd
  obtain ⟨hset, hsize'⟩ := set_holds hheld (Outcome.ofFault_ok.mp hd)
  refine ⟨by simpa using hset, ?_⟩
  omega

/-- A producer that is changed gives way to the lines that push the parts. -/
theorem convertProducer_holds (hx : c.isEmitter x = true) (hd : c.convertProducer part code p = .ok d) :
    ∃ out, c.Emits p code.nodes.size x part out ∧ d.Holds (pre ++ out ++ post) ∧
      code.nodes.size ≤ d.nodes.size := by
  have hget : code.get? p = some x := h.get?_eq (by simp)
  by_cases hoperand : c.isOperand x = true
  · rw [convertProducer_operand hget hoperand] at hd
    cases part with
    | some axis =>
      obtain ⟨hheld, hsize⟩ := set_holds h (Outcome.ofFault_ok.mp hd)
      exact ⟨_, .narrow hoperand, hheld, hsize.le⟩
    | none => exact ⟨_, .parts hoperand, becomes_holds h hd⟩
  · rw [isEmitter.eq_def, Bool.or_eq_true, or_iff_right hoperand] at hx
    cases x with
    | call op m itf =>
      cases he : c.catalog.lookup m with
      | none => simp [he] at hx
      | some e =>
        simp only [he, Entry.isProducer, Bool.and_eq_true, Bool.or_eq_true, beq_iff_eq] at hx
        obtain ⟨hproducer, hop⟩ := hx
        have hlisted : c.listed? (.call op m itf) = some e := he
        rw [convertProducer_listed hget hlisted] at hd
        by_cases hpack : e.pack = true
        · obtain rfl : op = .invokestatic := by simpa [hpack] using hop
          rw [if_pos hpack] at hd
          cases part with
          | some axis => exact ⟨_, .keep he hpack, becomes_holds h hd⟩
          | none =>
            obtain ⟨hheld, hsize⟩ := remove_holds h rfl (Outcome.ofExcept_ok.mp hd)
            exact ⟨_, .vanish he hpack, hheld, hsize.le⟩
        · have haxes := hproducer.resolve_left hpack
          rw [if_neg hpack] at hd
          cases part with
          | some axis =>
            obtain ⟨hheld, hsize⟩ := set_holds h (Outcome.ofFault_ok.mp hd)
            exact ⟨_, .accessor he haxes, hheld, hsize.le⟩
          | none => exact ⟨_, .accessors he haxes, becomes_holds h hd⟩
    | _ => simp at hx

end

/-- The producers `ids` have been changed: none of them is a call by now that could be converted, and nothing else
has changed. -/
structure Changes (code : Code) (ids : List InsnId) (d : Code) : Prop where
  linked : d.WellLinked
  size : code.nodes.size ≤ d.nodes.size
  others : ∀ id, id ∉ ids → id < (code.nodes.size : Int) → d.state? id = code.state? id
  spent : ∀ p ∈ ids, ∀ op m itf, d.state? p = some (.call op m itf, false) → m.desc = ("()I" : Text)

/-- The calls that take the place of a producer are accessors. -/
theorem Emits.accessor_of_call (hcat : c.catalog.Shaped) {n : Nat} {out : List (InsnId × Insn)}
    (h : c.Emits p n x part out) {op : Opcode} {m : Member} {itf : Bool}
    (hm : .call op m itf ∈ out.map Prod.snd) : m.desc = ("()I" : Text) := by
  have hnarrow : ∀ {x : Insn} {axis : Axis}, c.isOperand x = true → .call op m itf ≠ c.narrow x axis := by
    intro x axis hx heq
    rcases Machine.isOperand_iff.mp hx with ⟨slot, rfl, -⟩ | rfl <;> cases heq
  have hmember : ∀ {m' : Member} {e : Entry} {axis : Axis}, c.catalog.lookup m' = some e → e.axes.isSome = true →
      .call op m itf = Insn.ofAccessor (e.axisMember axis) → m.desc = ("()I" : Text) := by
    intro m' e axis he haxes heq
    obtain ⟨-, rfl, -⟩ := Insn.call.inj heq
    exact hcat.axisMember_desc he haxes axis
  cases h with
  | narrow hx => exact absurd (List.mem_singleton.mp hm) (hnarrow hx)
  | parts hx =>
    simp only [List.map_append, map_snd_numbered, List.map_cons, List.map_nil, List.cons_append, List.nil_append,
      List.mem_cons, List.not_mem_nil, or_false] at hm
    rcases hm with hm | hm | hm <;> exact absurd hm (hnarrow hx)
  | keep => simp [map_snd_numbered] at hm
  | vanish => cases hm
  | accessor he haxes => exact hmember he haxes (List.mem_singleton.mp hm)
  | accessors he haxes =>
    simp only [keepReceiver, List.map_append, map_snd_numbered, List.map_cons, List.map_nil, List.cons_append,
      List.nil_append, List.mem_cons, List.not_mem_nil, or_false, reduceCtorEq, false_or] at hm
    rcases hm with hm | hm | hm <;> exact hmember he haxes hm

/-- Changing one producer. -/
theorem convertProducer_changes (hcat : c.catalog.Shaped) (hcode : code.WellLinked)
    (hx : code.state? p = some (x, false)) (hemitter : c.isEmitter x = true)
    (hd : c.convertProducer part code p = .ok d) : Changes code [p] d := by
  obtain ⟨pre, post, hheld⟩ := hcode.exists_split hx
  obtain ⟨out, hemits, hout, hsize⟩ := convertProducer_holds hheld hemitter hd
  obtain ⟨d', hd', hedit, -⟩ := convertProducer_ok part hx (isSplittable_of_isEmitter hcat hemitter)
  obtain rfl := Except.ok.inj (hd'.symm.trans hd)
  refine ⟨hout.wellLinked, hsize, fun id hid hlt => hedit.others id (by simpa using hid) hlt, ?_⟩
  intro q hq op m itf hstate
  obtain rfl := List.mem_singleton.mp hq
  have hnodup := hheld.nodup
  rw [List.map_append, List.map_cons, List.nodup_middle, List.nodup_cons, ← List.map_append] at hnodup
  obtain ⟨a, b, hab⟩ := hout.wellLinked.exists_split hstate
  have hmem : (q, .call op m itf) ∈ pre ++ out ++ post := by
    rw [← hout.listing_eq, hab.listing_eq]
    simp
  have hmem' : (q, .call op m itf) ∈ out := by
    have hout' : (q, .call op m itf) ∉ pre ++ post := fun h => hnodup.1 (List.mem_map.mpr ⟨_, h, rfl⟩)
    simp only [List.mem_append] at hmem hout'
    tauto
  exact hemits.accessor_of_call hcat (List.mem_map_of_mem hmem')

/-- Changing producers one after the other. -/
theorem convertProducers_changes (hcat : c.catalog.Shaped) (hcode : code.WellLinked) {ids : List InsnId}
    (hnodup : ids.Nodup) (hids : ∀ p ∈ ids, ∃ x, code.state? p = some (x, false) ∧ c.isEmitter x = true)
    (hd : ids.foldlM (fun code p => c.convertProducer part code p) code = .ok d) : Changes code ids d := by
  induction ids generalizing code with
  | nil =>
    obtain rfl := Except.ok.inj hd
    exact ⟨hcode, le_rfl, fun _ _ _ => rfl, by simp⟩
  | cons p ids ih =>
    obtain ⟨hp, hnodup⟩ := List.nodup_cons.mp hnodup
    obtain ⟨d₁, hd₁, hd⟩ := except_bind_ok.mp hd
    obtain ⟨x, hx, hemitter⟩ := hids p List.mem_cons_self
    have hfirst := convertProducer_changes hcat hcode hx hemitter hd₁
    have hrest := ih hfirst.linked hnodup (fun q hq => by
      obtain ⟨y, hy, hy'⟩ := hids q (List.mem_cons_of_mem _ hq)
      have hne : q ∉ [p] := fun h => hp (List.mem_singleton.mp h ▸ hq)
      exact ⟨y, by rw [hfirst.others q hne (lt_size_of_state? hy), hy], hy'⟩) hd
    have hgrow : ∀ id : InsnId, id < (code.nodes.size : Int) → id < (d₁.nodes.size : Int) := fun id h =>
      lt_of_lt_of_le h (by exact_mod_cast hfirst.size)
    refine ⟨hrest.linked, le_trans hfirst.size hrest.size, ?_, ?_⟩
    · intro id hid hlt
      rw [List.mem_cons, not_or] at hid
      rw [hrest.others id hid.2 (hgrow id hlt), hfirst.others id (by simpa using hid.1) hlt]
    · intro q hq op m itf hstate
      rcases List.mem_cons.mp hq with rfl | hq
      · rw [hrest.others q hp (hgrow q (lt_size_of_state? hx))] at hstate
        exact hfirst.spent q (by simp) op m itf hstate
      · exact hrest.spent q hq op m itf hstate

end ExpansionContext

/-! ## Its typing -/

section

variable {first : Int → Bool} {κ κ' : Kind} {S : List Kind} {L : LocalKinds}

theorem kindStep_pop (hκ : κ.isWide = false) : KindStep first (.plain .pop) ⟨κ :: S, L⟩ ⟨S, L⟩ :=
  ⟨[κ], [], S, rfl, rfl, .drop (.inl ⟨rfl, by simp [Kind.size, hκ]⟩)⟩

theorem kindStep_dup (hκ : κ.isWide = false) : KindStep first (.plain .dup) ⟨κ :: S, L⟩ ⟨κ :: κ :: S, L⟩ :=
  ⟨[κ], [κ, κ], S, rfl, rfl, .move ⟨[0, 0], by simp [Step.picks?, hκ], rfl⟩⟩

theorem kindStep_swap (hκ : κ.isWide = false) (hκ' : κ'.isWide = false) :
    KindStep first (.plain .swap) ⟨κ :: κ' :: S, L⟩ ⟨κ' :: κ :: S, L⟩ :=
  ⟨[κ, κ'], [κ', κ], S, rfl, rfl, .move ⟨[1, 0], by simp [Step.picks?, hκ, hκ'], rfl⟩⟩

end

namespace ExpansionContext

variable {c : ExpansionContext} {Leads : InsnId → FrameType → Prop} {Safe : LocalKinds → Prop}
  {Exit : FrameType → Prop} {S : List Kind} {L : LocalKinds}

/-- The receiver is asked for a part and stays on top. -/
theorem runs_keepReceiver {e : Entry} {axis : Axis} (hdesc : (e.axisMember axis).desc = ("()I" : Text))
    (hsafe : Safe L) (hexit : Exit ⟨.ref :: .int :: S, L⟩) (n : Nat) :
    KindRuns c Leads Safe Exit (numbered n (keepReceiver e axis)) ⟨.ref :: S, L⟩ := by
  simp only [keepReceiver, numbered_cons, numbered_nil]
  apply Runs.step (kindStep_dup rfl) rfl hsafe
  apply Runs.step (kindStep_accessor hdesc _ _) rfl hsafe
  exact Runs.step (kindStep_swap rfl rfl) rfl hsafe (.done hexit)

/-- Of three ints on the stack one is kept. -/
theorem runs_keepOne (axis : Axis) (hsafe : Safe L) (hexit : Exit ⟨.int :: S, L⟩) (n : Nat) (p : InsnId) :
    KindRuns c Leads Safe Exit
      (numbered n ((keepOne axis).1.map .plain) ++ [(p, .plain (keepOne axis).2)])
      ⟨.int :: .int :: .int :: S, L⟩ := by
  have hpop : ∀ T id, Exit ⟨.int :: T, L⟩ → KindRuns c Leads Safe Exit
      [(id, .plain .pop)] ⟨.int :: .int :: T, L⟩ := fun T id h =>
    Runs.step (kindStep_pop rfl) rfl hsafe (.done h)
  cases axis with
  | x =>
    simp only [keepOne, List.map_cons, List.map_nil, numbered_cons, numbered_nil, List.cons_append,
      List.nil_append]
    exact Runs.step (kindStep_pop rfl) rfl hsafe (hpop S p hexit)
  | y =>
    simp only [keepOne, List.map_cons, List.map_nil, numbered_cons, numbered_nil, List.cons_append,
      List.nil_append]
    apply Runs.step (kindStep_pop rfl) rfl hsafe
    exact Runs.step (kindStep_swap rfl rfl) rfl hsafe (hpop S p hexit)
  | z =>
    simp only [keepOne, List.map_cons, List.map_nil, numbered_cons, numbered_nil, List.cons_append,
      List.nil_append]
    apply Runs.step (kindStep_swap rfl rfl) rfl hsafe
    apply Runs.step (kindStep_pop rfl) rfl hsafe
    exact Runs.step (kindStep_swap rfl rfl) rfl hsafe (hpop S p hexit)

/-- A call with accessors has a receiver that can be asked. -/
def AsksReceiver (c : ExpansionContext) (x : Insn) : Prop :=
  ∀ op m itf e, x = .call op m itf → c.catalog.lookup m = some e → e.axes.isSome = true → op.hasReceiver = true

variable {p : InsnId} {n : Nat} {x : Insn} {part : Option Axis} {out : List (InsnId × Insn)}

/-- What passes through a producer in its role passes through the lines that take its place. -/
theorem Emits.runs (h : c.Emits p n x part out) (hcat : c.catalog.Shaped) (hasks : c.AsksReceiver x) {u t' : FrameType}
    (hrole : RoleStep c.slots.isFirst ⟨none, some part⟩ x u t') (hsafe : Safe u.locals)
    (hexit : x.opcode.falls = true → Exit t') : KindRuns c Leads Safe Exit out u := by
  obtain ⟨stack, L⟩ := u
  obtain ⟨below, hstep, hstack⟩ := hrole
  obtain ⟨stack', L'⟩ := t'
  simp only [Option.getD_none] at hstep hstack hsafe
  subst hstack
  have hrest : ∀ {rest : List Kind} {L₀ : LocalKinds}, (⟨.long :: below, L'⟩ : FrameType) = ⟨.long :: rest, L₀⟩ →
      below = rest ∧ L' = L₀ := by
    rintro rest L₀ ⟨⟩
    exact ⟨rfl, rfl⟩
  cases h with
  | @narrow _ axis hx =>
    have hexit := hexit (falls_of_operand hx)
    obtain ⟨hknown, heq⟩ := (kindStep_operand_iff hx).mp hstep
    obtain ⟨rfl, rfl⟩ := hrest heq
    exact Runs.step (kindStep_narrow hx axis (fun j hj => hknown.part hj axis) _) (c.targets_narrow x axis) hsafe
      (.done hexit)
  | parts hx =>
    have hexit := hexit (falls_of_operand hx)
    obtain ⟨hknown, heq⟩ := (kindStep_operand_iff hx).mp hstep
    obtain ⟨rfl, rfl⟩ := hrest heq
    have hpart : ∀ axis T, KindStep c.slots.isFirst (c.narrow x axis) ⟨T, L'⟩ ⟨.int :: T, L'⟩ := fun axis =>
      kindStep_narrow hx axis fun j hj => hknown.part hj axis
    simp only [numbered_cons, numbered_nil, List.cons_append, List.nil_append]
    apply Runs.step (hpart .x _) (c.targets_narrow x .x) hsafe
    apply Runs.step (hpart .y _) (c.targets_narrow x .y) hsafe
    exact Runs.step (hpart .z _) (c.targets_narrow x .z) hsafe (.done hexit)
  | @keep m itf e axis he hpack =>
    have hexit := hexit rfl
    obtain ⟨rest, hstack, heq⟩ := kindStep_pack hcat he hpack hstep
    obtain ⟨rfl, rfl⟩ := hrest heq
    rw [show stack = _ from hstack]
    exact runs_keepOne axis hsafe hexit n p
  | vanish he hpack =>
    have hexit := hexit rfl
    obtain ⟨rest, hstack, heq⟩ := kindStep_pack hcat he hpack hstep
    obtain ⟨rfl, rfl⟩ := hrest heq
    rw [show stack = _ from hstack]
    exact .done hexit
  | @accessor op m itf e axis he haxes =>
    have hexit := hexit hstep.falls
    obtain ⟨rest, hstack, heq⟩ := kindStep_axes hcat he haxes (hasks op m itf e rfl he haxes) hstep
    have hdesc := hcat.axisMember_desc he haxes
    obtain ⟨rfl, rfl⟩ := hrest heq
    rw [show stack = _ from hstack]
    exact Runs.step (kindStep_accessor (hdesc axis) _ _) rfl hsafe (.done hexit)
  | @accessors op m itf e he haxes =>
    have hexit := hexit hstep.falls
    obtain ⟨rest, hstack, heq⟩ := kindStep_axes hcat he haxes (hasks op m itf e rfl he haxes) hstep
    have hdesc := hcat.axisMember_desc he haxes
    obtain ⟨rfl, rfl⟩ := hrest heq
    rw [show stack = _ from hstack, numbered_append]
    apply Runs.append_iff.mpr
    apply Runs.append_iff.mpr
    apply runs_keepReceiver (hdesc .x) hsafe
    apply runs_keepReceiver (hdesc .y) hsafe
    exact Runs.step (kindStep_accessor (hdesc .z) _ _) rfl hsafe (.done hexit)

theorem Emits.not_label (h : c.Emits p n x part out) : x.isLabel = false := by
  cases h with
  | narrow hx => exact (loose_of_isOperand hx).1
  | parts hx => exact (loose_of_isOperand hx).1
  | _ => rfl

/-- The new lines have the id of the producer and ids that were free, and have neither branches nor labels. -/
theorem Emits.lines (h : c.Emits p n x part out) :
    ∀ q ∈ out, (q.1 = p ∨ (n : Int) ≤ q.1) ∧ q.2.targets = [] ∧ q.2.isLabel = false := by
  have hnumbered : ∀ (xs : List Insn) (last : Insn), (∀ y ∈ xs, y.targets = [] ∧ y.isLabel = false) →
      last.targets = [] ∧ last.isLabel = false → ∀ q ∈ numbered n xs ++ [(p, last)],
        (q.1 = p ∨ (n : Int) ≤ q.1) ∧ q.2.targets = [] ∧ q.2.isLabel = false := by
    intro xs last hxs hlast q hq
    rcases List.mem_append.mp hq with hq | hq
    · refine ⟨.inr (le_of_mem_numbered hq), hxs q.2 ?_⟩
      rw [← map_snd_numbered n xs]
      exact List.mem_map_of_mem hq
    · rw [List.mem_singleton.mp hq]
      exact ⟨.inl rfl, hlast⟩
  have hnarrow : ∀ axis, (c.narrow x axis).targets = [] ∧ (c.narrow x axis).isLabel = false := fun axis =>
    ⟨c.targets_narrow x axis, by cases x <;> rfl⟩
  cases h with
  | narrow hx => exact hnumbered [] _ (by simp) (hnarrow _)
  | parts hx => exact hnumbered _ _ (by simp [hnarrow]) (hnarrow _)
  | keep => exact hnumbered _ _ (by simp [Insn.targets, Insn.isLabel]) ⟨rfl, rfl⟩
  | vanish => simp
  | accessor => exact hnumbered [] _ (by simp) ⟨rfl, rfl⟩
  | accessors =>
    exact hnumbered _ _ (by simp [keepReceiver, Insn.targets, Insn.isLabel, Insn.ofAccessor]) ⟨rfl, rfl⟩

end ExpansionContext

/-! ## Stages -/

/-- A code on the way from one in which lines play roles to one in which they are what they are: it is typed with the
roles that are left, and can be entered with what satisfies `Entry`. -/
structure Staged (c : ExpansionContext) (hs : List Handler) (Entry : FrameType → Prop) (D : InsnId → Role)
    (code : Code) : Prop where
  linked : code.WellLinked
  labels : Labelled hs code.listing
  fresh : ∀ id : InsnId, (code.nodes.size : Int) ≤ id → D id = .plain
  typed : ∃ T, Typed (fun id => RoleStep c.slots.isFirst (D id)) hs code.listing T ∧
    ∀ t, Entry t → T.Continues code.listing t

namespace Staged

variable {c : ExpansionContext} {hs : List Handler} {Entry : FrameType → Prop} {D D' : InsnId → Role} {code d : Code}
  {p : InsnId} {x : Insn} {pre post out : List (InsnId × Insn)}

variable (h : Staged c hs Entry D code)

include h

/-- One line gives way to others through which the same passes. Only the role of that line changes. -/
theorem replace (hcode : code.Holds (pre ++ (p, x) :: post))
    (hd : d.Holds (pre ++ out ++ post)) (hsize : code.nodes.size ≤ d.nodes.size)
    (hx : x.isLabel = false) (hD : ∀ id, id ≠ p → D' id = D id) (hlines : ∀ q ∈ out, q.2.targets = [])
    (hout : ∀ Leads Safe Exit u t', RoleStep c.slots.isFirst (D p) x u t' → Safe u.locals → Safe t'.locals →
      (x.opcode.falls = true → Exit t') → Runs (fun id => RoleStep c.slots.isFirst (D' id)) Leads Safe Exit out u) :
    Staged c hs Entry D' d := by
  have hlisting : code.listing = pre ++ [(p, x)] ++ post := by simpa using hcode.listing_eq
  obtain ⟨T, hT, hentry⟩ := h.typed
  have hnodup := h.linked.nodup
  have hlabels := h.labels
  rw [hlisting] at hT hentry hnodup hlabels
  have hother : ∀ q ∈ pre ++ post, q.1 ≠ p := by
    intro q hq heq
    simp only [List.map_append, List.map_cons, List.map_nil, List.nodup_append, List.mem_append,
      List.mem_singleton] at hnodup
    rcases List.mem_append.mp hq with hq | hq
    · exact hnodup.1.2.2 q.1 (List.mem_map_of_mem hq) p rfl heq
    · exact hnodup.2.2 p (.inr rfl) q.1 (List.mem_map_of_mem hq) heq.symm
  have hsegment : T.PassesAs (fun id => RoleStep c.slots.isFirst (D id))
      (fun id => RoleStep c.slots.isFirst (D' id)) hs pre [(p, x)] out post := by
    intro t hruns
    have hpass := T.passage hs pre post
    cases hruns with
    | line hrefines hrule _ hbefore hafter hrest =>
      have hnew := (hout T.Admits _ _ _ _ hrule hbefore hafter fun hfalls => (hrest hfalls).exit rfl).of_refines hpass
        hrefines
      have hids := hd.nodup
      rw [List.map_append, List.map_append, List.nodup_append, List.nodup_append] at hids
      obtain ⟨U, hU⟩ := hnew.segment hids.1.2.1
      refine ⟨U, hU.mono ?_⟩
      intro q hq t ht
      rw [hlines q hq] at ht
      cases ht
  obtain ⟨T', hT', hlabels', hcontinues⟩ : ∃ T', Typed (fun id => RoleStep c.slots.isFirst (D' id)) hs
      (pre ++ out ++ post) T' ∧ Labelled hs (pre ++ out ++ post) ∧
        ∀ t, T.Continues (pre ++ [(p, x)] ++ post) t → T'.Continues (pre ++ out ++ post) t := by
    refine hT.replace_labelled hlabels (by simp) ?_ hnodup hd.nodup ?_ ?_ hsegment
    · intro q hq hlabel
      rw [List.mem_singleton.mp hq] at hlabel
      rw [show x = .label from hlabel] at hx
      cases hx
    · intro q hq t ht
      rw [hlines q hq] at ht
      cases ht
    · intro q hq t t' hrule
      rwa [hD q.1 (hother q hq)]
  refine ⟨hd.wellLinked, by rwa [hd.listing_eq], ?_, T', by rwa [hd.listing_eq], ?_⟩
  · intro id hid
    have hlt : p < (code.nodes.size : Int) := (h.linked.id_lt (by simp [hlisting])).2
    have hle : (code.nodes.size : Int) ≤ id := le_trans (by exact_mod_cast hsize) hid
    rw [hD id (ne_of_gt (lt_of_lt_of_le hlt hle))]
    exact h.fresh id hle
  · intro t ht
    rw [hd.listing_eq]
    exact hcontinues t (hentry t ht)

/-- A producer in its role is changed to push the parts. -/
theorem convertProducer (hcat : c.catalog.Shaped) {part : Option Axis}
    (hx : code.state? p = some (x, false)) (hemitter : c.isEmitter x = true) (hasks : c.AsksReceiver x)
    (hp : D p = ⟨none, some part⟩) (hD : ∀ id, id ≠ p → D' id = D id) (hplain : D' p = .plain)
    (hd : c.convertProducer part code p = .ok d) : Staged c hs Entry D' d := by
  obtain ⟨pre, post, hheld⟩ := h.linked.exists_split hx
  obtain ⟨out, hemits, hout, hsize⟩ := ExpansionContext.convertProducer_holds hheld hemitter hd
  refine h.replace hheld hout hsize hemits.not_label hD (fun q hq => (hemits.lines q hq).2.1) ?_
  intro Leads Safe Exit u t' hrule hbefore _ hexit
  rw [hp] at hrule
  refine (hemits.runs hcat hasks hrule hbefore hexit).of_rules fun q hq v v' hstep => ?_
  have hq' : D' q.1 = .plain := by
    by_cases heq : q.1 = p
    · rw [heq, hplain]
    · rw [hD q.1 heq]
      exact h.fresh q.1 ((hemits.lines q hq).1.resolve_left heq)
  rw [hq']
  exact hstep

/-- Producers in their roles are changed one after the other. -/
theorem convertProducers (hcat : c.catalog.Shaped) {part : Option Axis} {ids : List InsnId} (hnodup : ids.Nodup)
    (hids : ∀ p ∈ ids, ∃ x, code.state? p = some (x, false) ∧ c.isEmitter x = true ∧ c.AsksReceiver x)
    (hrole : ∀ p ∈ ids, D p = ⟨none, some part⟩)
    (hd : ids.foldlM (fun code p => c.convertProducer part code p) code = .ok d) :
    Staged c hs Entry (fun id => if id ∈ ids then .plain else D id) d := by
  induction ids generalizing code D with
  | nil =>
    obtain rfl := Except.ok.inj hd
    simpa using h
  | cons p ids ih =>
    obtain ⟨hp, hnodup⟩ := List.nodup_cons.mp hnodup
    obtain ⟨d₁, hd₁, hd⟩ := except_bind_ok.mp hd
    obtain ⟨x, hx, hemitter, hasks⟩ := hids p List.mem_cons_self
    have hfirst := ExpansionContext.convertProducer_changes hcat h.linked hx hemitter hd₁
    have hstage : Staged c hs Entry (fun id => if id = p then .plain else D id) d₁ :=
      h.convertProducer hcat hx hemitter hasks (hrole p List.mem_cons_self) (fun id hid => if_neg hid) (if_pos rfl) hd₁
    have hother : ∀ q ∈ ids, q ≠ p := fun q hq heq => hp (heq ▸ hq)
    have hrest := ih hstage hnodup (fun q hq => by
      obtain ⟨y, hy, hy'⟩ := hids q (List.mem_cons_of_mem _ hq)
      exact ⟨y, by rw [hfirst.others q (by simpa using hother q hq) (lt_size_of_state? hy), hy], hy'⟩)
      (fun q hq => by rw [if_neg (hother q hq), hrole q (List.mem_cons_of_mem _ hq)]) hd
    convert hrest using 2
    next id =>
      by_cases heq : id = p
      · simp [heq]
      · simp [heq]

/-- A call that is read as another one becomes that one. -/
theorem setCall {op : Opcode} {m target : Member} {itf : Bool}
    (hx : code.state? p = some (.call op m itf, false)) (hp : (D p).reads = some (.call op target itf))
    (hD : ∀ id, id ≠ p → D' id = D id) (hD' : D' p = ⟨none, (D p).gives⟩)
    (hd : code.set p (.call op target itf) = .ok d) : Staged c hs Entry D' d := by
  obtain ⟨pre, post, hheld⟩ := h.linked.exists_split hx
  obtain ⟨hout, hsize⟩ := ExpansionContext.set_holds hheld hd
  refine h.replace hheld hout hsize.le rfl hD (by simp [Insn.targets]) ?_
  intro Leads Safe Exit u t' hrule hbefore hafter hexit
  have hrule' : RoleStep c.slots.isFirst (D' p) (.call op target itf) u t' := by
    rw [hD', RoleStep]
    rwa [RoleStep, hp] at hrule
  exact .line (.refl u) hrule' (by simp [Insn.targets]) hbefore hafter fun hfalls => .done (hexit hfalls)

/-- A call that is read as nothing is taken out. -/
theorem removeCall {op : Opcode} {m : Member} {itf : Bool}
    (hx : code.state? p = some (.call op m itf, false)) (hop : op.falls = true)
    (hp : D p = ⟨some .label, none⟩) (hD : ∀ id, id ≠ p → D' id = D id) (hd : code.remove p = .ok d) :
    Staged c hs Entry D' d := by
  obtain ⟨pre, post, hheld⟩ := h.linked.exists_split hx
  obtain ⟨hout, hsize⟩ := ExpansionContext.remove_holds hheld rfl hd
  refine h.replace hheld hout hsize.le rfl hD (by simp) ?_
  intro Leads Safe Exit u t' hrule _ _ hexit
  rw [hp] at hrule
  have hlabel : (Insn.label).signature? = some ⟨[], none⟩ := rfl
  have hsame : t' = u := (KindStep.regular hrule hlabel [] [] rfl rfl rfl).1
  rw [hsame] at hexit
  exact .done (hexit hop)

end Staged

end CoordSplit
