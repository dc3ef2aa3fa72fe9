import CoordSplit.Proofs.ReferenceIntegrity

/-!
# Changed producers push the parts

A producer of a packed coordinate can be changed to push one part of it, or all three. What takes its place is
run on the machine here: it pushes the parts of the coordinate that the producer would have pushed, whether they
are loaded one by one, asked of a receiver that is copied for each, or picked out of three ints that are on the
stack already (`ExpansionContext.convertProducer_pushes`).
-/

set_option autoImplicit false

namespace CoordSplit

open Code ExpansionContext

namespace Machine

variable {R W : Type} {c : ExpansionContext} {M : Meaning R W} {s : State R W} {x : Insn}
  {taken rest : List (Value R)} {v : Coord}

/-! ## What producers push -/

/-- The parts of a coordinate that are asked for, as they lie on the stack, top first. -/
def pushed (v : Coord) : Option Axis → List (Value R)
  | some axis => [.int (v.get axis)]
  | none => [.int v.z, .int v.y, .int v.x]

/-- The values that a producer takes off the stack, top first, and the coordinate that it pushes for them. -/
inductive Produces (c : ExpansionContext) (M : Meaning R W) (s : State R W) : Insn → List (Value R) → Coord → Prop
  | operand {x : Insn} (hx : c.isOperand x = true) : Produces c M s x [] (operand c M s x)
  | pack {m : Member} {itf : Bool} {e : Entry} (he : c.catalog.lookup m = some e) (hpack : e.pack = true)
      (x y z : Int32) : Produces c M s (.call .invokestatic m itf) [.int z, .int y, .int x] ⟨x, y, z⟩
  | axes {op : Opcode} {m : Member} {itf : Bool} {e : Entry} {axes : AxisMembers} (hop : op.hasReceiver = true)
      (he : c.catalog.lookup m = some e) (ha : e.axes = some axes) (r : R) :
      Produces c M s (.call op m itf) [.ref r] (.ofParts fun axis => M.accessor (axes.get axis) r)

/-- With its operands on the stack, a producer pushes its coordinate. -/
theorem Produces.exec_eq (h : Produces c M s x taken v) (hcat : c.catalog.Shaped) (hs : s.stack = taken ++ rest) :
    exec c M x s = some (none, { s with stack := .packed v :: rest }) := by
  cases h with
  | operand hx =>
    rw [exec_operand hx, State.push, hs]
    rfl
  | pack he hpack x y z => exact exec_pack hcat he hpack _ hs
  | axes hop he ha r => exact exec_axes he ha hop _ hs

/-- A producer runs only with its operands on the stack. -/
theorem exists_produces (hcat : c.catalog.Shaped) (hx : c.isEmitter x = true) (hop : x.opcode ≠ .invokedynamic)
    (h : (exec c M x s).isSome = true) : ∃ taken rest v, Produces c M s x taken v ∧ s.stack = taken ++ rest := by
  by_cases hoperand : c.isOperand x = true
  · exact ⟨[], s.stack, _, .operand hoperand, rfl⟩
  · rw [isEmitter.eq_def, Bool.or_eq_true, or_iff_right hoperand] at hx
    cases x with
    | call op m itf =>
      cases he : c.catalog.lookup m with
      | none => simp [he] at hx
      | some e =>
        simp only [he, Entry.isProducer, Bool.and_eq_true, Bool.or_eq_true, beq_iff_eq] at hx
        obtain ⟨hproducer, hstatic⟩ := hx
        by_cases hpack : e.pack = true
        · obtain rfl : op = .invokestatic := by simpa [hpack] using hstatic
          have hfilter : (c.catalog.lookup m).filter Entry.pack = some e := by simp [he, Option.filter, hpack]
          simp only [exec, if_true, execStatic, hcat.not_unpack_of_pack he hpack, hcat.not_offset_of_pack he hpack,
            hfilter] at h
          split at h
          · next z y x rest _ hs => exact ⟨_, rest, _, .pack he hpack x y z, hs⟩
          · simp at h
        · obtain ⟨axes, ha⟩ := Option.isSome_iff_exists.mp (hproducer.resolve_left hpack)
          have hne : op ≠ .invokestatic := by simpa [hpack] using hstatic
          have hreceiver : op.hasReceiver = true := by
            rw [Opcode.hasReceiver.eq_def]
            split
            · exact absurd rfl hne
            · exact absurd rfl hop
            · rfl
          simp only [exec, if_neg hne, hreceiver, if_true, execReceiver] at h
          split at h
          · next r rest hs => exact ⟨_, rest, _, .axes hreceiver he ha r, hs⟩
          · simp at h
    | _ => simp at hx

/-! ## What is put in their place -/

/-- One of three ints is kept. -/
theorem run_keepOne (axis : Axis) (n : Nat) (p : InsnId) (v : Coord) (hs : s.stack = pushed v none ++ rest) :
    run c M none (numbered n ((keepOne axis).1.map .plain) ++ [(p, .plain (keepOne axis).2)]) s =
      some (none, { s with stack := pushed v (some axis) ++ rest }) := by
  obtain ⟨stack, locals⟩ := s
  obtain rfl : stack = pushed v none ++ rest := hs
  cases axis <;> rfl

/-- The receiver is asked for a part and stays on top of it. -/
theorem run_keepReceiver (hcat : c.catalog.Shaped) {e : Entry} {axis : Axis}
    (hm : (e.axisMember axis).desc = ("()I" : Text)) (n : Nat) {r : R} (hs : s.stack = .ref r :: rest) :
    run c M none (numbered n (keepReceiver e axis)) s =
      some (none, { s with stack := .ref r :: .int (M.accessor (e.axisMember axis) r) :: rest }) := by
  obtain ⟨stack, locals⟩ := s
  obtain rfl : stack = .ref r :: rest := hs
  have hdup : exec c M (.plain .dup) ⟨.ref r :: rest, locals⟩ = some (none, ⟨.ref r :: .ref r :: rest, locals⟩) := rfl
  rw [keepReceiver, numbered_cons, numbered_cons, numbered_cons, numbered_nil, run_cons_of hdup,
    run_cons_of (exec_accessor hcat hm rfl), run_singleton]
  rfl

/-- What takes the place of a producer pushes the parts of the coordinate that the producer would push. -/
theorem Produces.run_emits (h : Produces c M s x taken v) (hcat : c.catalog.Shaped) {p : InsnId} {n : Nat}
    {part : Option Axis} {out : List (InsnId × Insn)} (hout : c.Emits p n x part out)
    (hs : s.stack = taken ++ rest) :
    run c M none out s = some (none, { s with stack := pushed v part ++ rest }) := by
  have hcall : ∀ {op : Opcode} {m : Member} {itf : Bool}, c.isOperand (.call op m itf) ≠ true := by
    simp [isOperand, isPackedLoad, isSentinel]
  cases h with
  | operand hx =>
    have hpart : ∀ (axis : Axis) (stack : List (Value R)), exec c M (c.narrow x axis) { s with stack := stack } =
        some (none, { s with stack := .int ((Machine.operand c M s x).get axis) :: stack }) :=
      fun axis _ => exec_narrow hx axis fun _ _ => rfl
    cases hout with
    | @narrow _ axis =>
      rw [run_singleton]
      refine (hpart axis s.stack).trans ?_
      rw [hs]
      rfl
    | parts =>
      rw [numbered_cons, numbered_cons, numbered_nil, List.cons_append, List.cons_append, List.nil_append,
        run_cons_of (hpart .x s.stack), run_cons_of (hpart .y _), run_singleton, hpart, hs]
      rfl
    | keep | vanish | accessor | accessors => exact absurd hx hcall
  | @pack m itf e he hpack x y z =>
    have hstatic : ∀ e', c.catalog.lookup m = some e' → e'.axes.isSome = true → False := by
      intro e' he' haxes
      obtain rfl := Option.some.inj (he.symm.trans he')
      obtain ⟨axes, ha⟩ := Option.isSome_iff_exists.mp haxes
      have hshaped := hcat.entries e (Catalog.lookup_key he).2
      exact absurd ((hshaped.pack hpack).2.1.symm.trans (hshaped.axes axes ha).2.1) (by decide)
    cases hout with
    | narrow hx | parts hx => exact absurd hx hcall
    | keep => exact run_keepOne _ _ _ ⟨x, y, z⟩ hs
    | vanish =>
      rw [run_nil]
      exact congrArg (fun stack => some (none, { s with stack := stack })) hs
    | accessor he' haxes | accessors he' haxes => exact (hstatic _ he' haxes).elim
  | @axes op m itf e axes hop he ha r =>
    have hmember := Entry.axisMember_eq ha
    have hdesc := hcat.axisMember_desc he (by simp [ha])
    cases hout with
    | narrow hx | parts hx => exact absurd hx hcall
    | keep | vanish => exact absurd hop (by decide)
    | @accessor _ _ _ e' axis he' haxes =>
      obtain rfl := Option.some.inj (he.symm.trans he')
      rw [run_singleton, exec_accessor hcat (hdesc axis) hs, hmember, pushed, Coord.get_ofParts]
      rfl
    | @accessors _ _ _ e' he' haxes =>
      obtain rfl := Option.some.inj (he.symm.trans he')
      rw [numbered_append, run_append, run_append, run_keepReceiver hcat (hdesc .x) _ hs, Option.bind_some,
        run_keepReceiver hcat (hdesc .y) _ rfl, Option.bind_some, run_singleton,
        exec_accessor hcat (hdesc .z) rfl, hmember, hmember, hmember]
      rfl

end Machine

/-! ## Branches -/

/-- Where lines without branches and labels take the place of an instruction that is no label, branches lead to labels
as before, and none leads into these lines. -/
theorem Code.BranchesToLabels.replace {code d : Code} {pre out post : List (InsnId × Insn)} {p : InsnId} {x : Insn}
    (h : code.BranchesToLabels) (hold : code.Holds (pre ++ (p, x) :: post)) (hx : x.isLabel = false)
    (hnew : d.Holds (pre ++ out ++ post)) (hout : ∀ q ∈ out, q.2.targets = [] ∧ q.2.isLabel = false) :
    d.BranchesToLabels ∧ ∀ y ∈ d.listing.map Prod.snd, ∀ t ∈ y.targets, t ∉ out.map Prod.fst := by
  -- a branch of the new code is one of the old code, and its label stayed
  have hlabels : ∀ y ∈ d.listing.map Prod.snd, ∀ t ∈ y.targets, (t, .label) ∈ pre ++ post := by
    intro y hy t ht
    have hy' : y ∈ code.listing.map Prod.snd := by
      rw [hnew.listing_eq, List.map_append, List.map_append, List.mem_append, List.mem_append] at hy
      rw [hold.listing_eq, List.map_append, List.map_cons]
      rcases hy with (hy | hy) | hy
      · simp [hy]
      · obtain ⟨q, hq, rfl⟩ := List.mem_map.mp hy
        simp [(hout q hq).1] at ht
      · simp [hy]
    have hlabel := h y hy' t ht
    rw [hold.listing_eq, List.mem_append, List.mem_cons] at hlabel
    rw [List.mem_append]
    rcases hlabel with hlabel | hlabel | hlabel
    · exact .inl hlabel
    · obtain ⟨-, rfl⟩ := Prod.mk.inj hlabel
      cases hx
    · exact .inr hlabel
  have hmem : ∀ {q : InsnId × Insn}, q ∈ pre ++ post → q ∈ pre ++ out ++ post := by
    simp only [List.mem_append]
    tauto
  refine ⟨?_, ?_⟩
  · intro y hy t ht
    rw [hnew.listing_eq]
    exact hmem (hlabels y hy t ht)
  · intro y hy t ht hin
    obtain ⟨⟨t', z⟩, hz, rfl⟩ := List.mem_map.mp hin
    have hlabel := hnew.get?_eq (hmem (hlabels y hy _ ht))
    rw [hnew.get?_eq (show (t', z) ∈ pre ++ out ++ post by simp [hz]), Option.some.injEq] at hlabel
    have hstraight := (hout (t', z) hz).2
    rw [hlabel] at hstraight
    cases hstraight

namespace ExpansionContext

open Machine

/-- A producer is changed to push parts in its place. In a code whose branches lead to labels, any producer but a
dynamic call can be changed to push one part of its coordinate, or all three. The lines that take its place are
entered from above only. From every state in which the producer runs, with what it takes on top of any rest, they
push the parts of the coordinate that the producer would push, on that rest, change no local, and lead on to where
the producer does. -/
theorem convertProducer_pushes {spec : CatalogSpec} {cat : Catalog} (hcat : spec.build = .ok cat) (slots : SlotMap)
    {code : Code} (hcode : code.WellLinked) (hbranches : code.BranchesToLabels) {p : InsnId} {x : Insn}
    (hp : (p, x) ∈ code.listing) (hx : isEmitter ⟨cat, slots⟩ x = true) (hop : x.opcode ≠ .invokedynamic)
    (part : Option Axis) :
    let c : ExpansionContext := ⟨cat, slots⟩
    ∃ d pre out post, c.convertProducer part code p = .ok d ∧
      code.listing = pre ++ (p, x) :: post ∧ d.listing = pre ++ out ++ post ∧ d.BranchesToLabels ∧
      (∀ y ∈ d.listing.map Prod.snd, ∀ t ∈ y.targets, t ∉ out.map Prod.fst) ∧
      ∀ (R W : Type) (M : Meaning R W) (s : State R W),
        ((exec c M x s).isSome = true → ∃ taken rest v, Produces c M s x taken v ∧ s.stack = taken ++ rest) ∧
        ∀ taken rest v, Produces c M s x taken v → s.stack = taken ++ rest →
          exec c M x s = some (none, { s with stack := .packed v :: rest }) ∧
          run c M none out s = some (none, { s with stack := pushed v part ++ rest }) := by
  intro c
  have hshaped : c.catalog.Shaped := CatalogSpec.build_shaped hcat
  have hstate : code.state? p = some (x, false) :=
    Code.state?_of_isLive ((hcode.isLive_iff p).mpr (List.mem_map_of_mem hp)) (hcode.get?_eq hp)
  obtain ⟨pre, post, hheld⟩ := hcode.exists_split hstate
  obtain ⟨d, hd, -⟩ := convertProducer_ok part hstate (isSplittable_of_isEmitter hshaped hx)
  obtain ⟨out, hout, hnew, -⟩ := convertProducer_holds hheld hx hd
  have hlabel : x.isLabel = false := by
    cases x with
    | label => simp [isEmitter, isOperand, isPackedLoad, isSentinel] at hx
    | _ => rfl
  obtain ⟨hbranches', hentered⟩ := hbranches.replace hheld hlabel hnew fun q hq => (hout.lines q hq).2
  refine ⟨d, pre, out, post, hd, hheld.listing_eq, hnew.listing_eq, hbranches', hentered, ?_⟩
  intro R W M s
  refine ⟨exists_produces hshaped hx hop, ?_⟩
  intro taken rest v hproduces hs
  exact ⟨hproduces.exec_eq hshaped hs, hproduces.run_emits hshaped hout hs⟩

namespace AskedReceiver

/-- A description of one method, whose result can be asked for in parts. -/
def spec : CatalogSpec where
  unpacking := ["P#x (J)I", "P#y (J)I", "P#z (J)I"]
  methods := [("B#at ()J", { returnsPacked := true, axes := ["B#x ()I", "B#y ()I", "B#z ()I"] })]

/-- The catalog of the description. -/
def catalog : Catalog :=
  ⟨[⟨⟨"B", "at", "()J"⟩, true, [], false, ⟨"B", "at", "()J"⟩,
      some ⟨⟨"B", "x", "()I"⟩, ⟨"B", "y", "()I"⟩, ⟨"B", "z", "()I"⟩⟩, false⟩],
   ⟨⟨"P", "x", "(J)I"⟩, ⟨"P", "y", "(J)I"⟩, ⟨"P", "z", "(J)I"⟩⟩, none, CatalogSpec.defaultSentinel⟩

/-- The instructions ask a receiver for a coordinate and drop it. -/
def insns : List Insn :=
  [.var .aload 0, .call .invokevirtual ⟨"B", "at", "()J"⟩ false, .plain .pop2, .plain .returnVoid]

theorem spec_build : spec.build = .ok catalog := by
  apply except_ok_of_toOption
  decide +kernel

/-- The receiver is copied, and gives all three parts. -/
theorem convertProducer_pushes_askedReceiver :
    let c : ExpansionContext := ⟨catalog, .ofSlots .empty⟩
    ∃ d pre out post, c.convertProducer none (Code.ofList insns) 1 = .ok d ∧ d.listing = pre ++ out ++ post ∧
      d.listing.map Prod.snd = [.var .aload 0, .plain .dup, .ofAccessor ⟨"B", "x", "()I"⟩, .plain .swap, .plain .dup,
        .ofAccessor ⟨"B", "y", "()I"⟩, .plain .swap, .ofAccessor ⟨"B", "z", "()I"⟩, .plain .pop2,
        .plain .returnVoid] ∧
      ∀ (R W : Type) (M : Meaning R W) (r : R) (rest : List (Machine.Value R)) (locals : Int → W),
        run c M none out ⟨.ref r :: rest, locals⟩ =
          some (none, ⟨[.int (M.accessor ⟨"B", "z", "()I"⟩ r), .int (M.accessor ⟨"B", "y", "()I"⟩ r),
            .int (M.accessor ⟨"B", "x", "()I"⟩ r)] ++ rest, locals⟩) := by
  intro c
  have hbranches : (Code.ofList insns).BranchesToLabels := by
    rw [Code.BranchesToLabels, (holds_ofList insns).listing_eq, map_snd_numbered]
    decide
  obtain ⟨d, pre, out, post, hd, -, hnew, -, -, hrun⟩ := convertProducer_pushes spec_build (.ofSlots .empty)
    (holds_ofList insns).wellLinked hbranches
    (show (1, .call .invokevirtual ⟨"B", "at", "()J"⟩ false) ∈ (Code.ofList insns).listing by decide +kernel)
    (by decide +kernel) (by decide) none
  have hlisting : (c.convertProducer none (Code.ofList insns) 1).toOption.map (fun d => d.listing.map Prod.snd) =
      some [.var .aload 0, .plain .dup, .ofAccessor ⟨"B", "x", "()I"⟩, .plain .swap, .plain .dup,
        .ofAccessor ⟨"B", "y", "()I"⟩, .plain .swap, .ofAccessor ⟨"B", "z", "()I"⟩, .plain .pop2,
        .plain .returnVoid] := by decide +kernel
  rw [hd] at hlisting
  refine ⟨d, pre, out, post, hd, hnew, Option.some.inj hlisting, ?_⟩
  intro R W M r rest locals
  exact ((hrun R W M ⟨.ref r :: rest, locals⟩).2 [.ref r] rest _ (.axes rfl rfl rfl r) rfl).2

end AskedReceiver

end ExpansionContext

end CoordSplit
