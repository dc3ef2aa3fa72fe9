import CoordSplit.Proofs.PatternMeaning

/-!
# A scan preserves meaning

The invariant of a scan (`ScanReady`), and from it that every replacement of a run preserves the meaning of
the code (`PatternRun.rewrites_run_eq`).
-/

set_option autoImplicit false

namespace CoordSplit

open Code Pattern

/-! ## The operands of calls that pack -/

namespace Insn

/-- Whether an instruction can stand neither behind the first operand of a call that packs, nor behind the
second or the third. -/
def bars (x : Insn) : Bool :=
  match x with
  | .call _ _ _ => false
  | x => !x.isIntPush

end Insn

/-- A call that packs can be reached neither at once nor behind one more operand. -/
def Barred : List Insn → Prop
  | [] => True
  | [x] => x.bars = true ∨ x.isIntPush = true
  | x :: y :: _ => x.bars = true ∨ x.isIntPush = true ∧ y.bars = true

/-- No call that packs has the load of a part of a coordinate for its second or third operand. -/
def PackClear (E : IndexSet) : List Insn → Prop
  | [] => True
  | x :: rest => (∀ j, x = .var .iload j → SlotMap.Clear E j ∨ Barred rest) ∧ PackClear E rest

namespace PackClear

variable {E : IndexSet} {x y z : Insn} {rest : List Insn}

theorem of_append {xs ys : List Insn} (h : PackClear E (xs ++ ys)) : PackClear E ys := by
  induction xs with
  | nil => exact h
  | cons x xs ih => exact ih h.2

theorem tail {xs : List Insn} (h : PackClear E xs) : PackClear E xs.tail := by
  cases xs with
  | nil => exact h
  | cons x xs => exact h.2

theorem cons_other (hx : ∀ j, x ≠ .var .iload j) (h : PackClear E rest) : PackClear E (x :: rest) :=
  ⟨fun j hj => absurd hj (hx j), h⟩

theorem cons_bars (hy : y.bars = true) (h : PackClear E (y :: rest)) : PackClear E (x :: y :: rest) := by
  refine ⟨fun _ _ => .inr ?_, h⟩
  cases rest with
  | nil => exact .inl hy
  | cons z rest => exact .inl hy

theorem cons_push_bars (hy : y.isIntPush = true) (hz : z.bars = true) (h : PackClear E (y :: z :: rest)) :
    PackClear E (x :: y :: z :: rest) :=
  ⟨fun _ _ => .inr (.inr ⟨hy, hz⟩), h⟩

/-- The second and the third operand of a call that packs are not loads of parts. -/
theorem clear_of_pack {m : Member} {op : Opcode} {itf : Bool}
    (h : PackClear E (y :: z :: .call op m itf :: rest)) (hz : z.isIntPush = true) :
    ∀ j, .var .iload j ∈ [y, z] → SlotMap.Clear E j := by
  have hnot : z.bars = false := by
    unfold Insn.bars
    split
    · rfl
    · simp [hz]
  have hcall : (Insn.call op m itf).bars = false ∧ (Insn.call op m itf).isIntPush = false := ⟨rfl, rfl⟩
  intro j hj
  rcases List.mem_cons.mp hj with hj | hj
  · rcases h.1 j hj.symm with hclear | hbarred
    · exact hclear
    · rcases hbarred with hbars | ⟨-, hbars⟩
      · rw [hnot] at hbars
        exact absurd hbars (by simp)
      · rw [hcall.1] at hbars
        exact absurd hbars (by simp)
  · rw [List.mem_singleton] at hj
    rcases h.2.1 j hj.symm with hclear | hbarred
    · exact hclear
    · have hfalse : (Insn.call op m itf).bars = true ∨ (Insn.call op m itf).isIntPush = true := by
        cases rest with
        | nil => exact hbarred
        | cons w rest => exact hbarred.imp id And.left
      simp [hcall] at hfalse

end PackClear

namespace Machine

variable {c : ExpansionContext} {E : IndexSet}

theorem isIntPush_narrow {x : Insn} (hx : c.isOperand x = true) (axis : Axis) :
    (c.narrow x axis).isIntPush = true := by
  rcases isOperand_iff.mp hx with ⟨slot, rfl, -⟩ | rfl <;> simp [ExpansionContext.narrow, Insn.isIntPush]

theorem packClear_compareParts {a b : Insn} (hb : c.isOperand b = true) (axis : Axis) (op : Opcode)
    (t : InsnId) {rest : List Insn} (h : PackClear E rest) : PackClear E (compareParts c a b axis op t ++ rest) := by
  have hjump : (Insn.jump op t).bars = true := rfl
  apply PackClear.cons_push_bars (isIntPush_narrow hb axis) hjump
  apply PackClear.cons_bars hjump
  exact PackClear.cons_other (by simp) h

/-- Getting a part and storing it packs no part. -/
theorem packClear_part {load : List Insn} {part : Axis → List Insn} (hp : Parts c load part) (axis : Axis)
    (slot : Int) {rest : List Insn} (h : PackClear E rest) :
    PackClear E (part axis ++ .var .istore slot :: rest) := by
  have hstore : PackClear E (.var .istore slot :: rest) := PackClear.cons_other (by simp) h
  have hbars : (Insn.var .istore slot).bars = true := rfl
  cases hp with
  | @offset x r op itf o ho hx hr =>
    have hr' : r.bars = true ∧ ∀ j, r ≠ .var .iload j := by
      cases r <;> simp_all [Insn.bars, Insn.isIntPush, Insn.isRefPush]
      rfl
    apply PackClear.cons_bars hr'.1
    apply PackClear.cons_other hr'.2
    apply PackClear.cons_other (by simp [Insn.ofAccessor])
    exact PackClear.cons_other (by simp) hstore
  | sentinel hx => exact PackClear.cons_bars hbars hstore
  | accessors he ha =>
    apply PackClear.cons_other (by simp)
    exact PackClear.cons_other (by simp [Insn.ofAccessor]) hstore
  | pack he hpack hx hy hz => cases axis <;> exact PackClear.cons_bars hbars hstore
  | copy hx => exact PackClear.cons_bars hbars hstore

variable {w out : List (InsnId × Insn)}

/-- What a pattern puts in has no such call, but for the load at its start. -/
theorem packClear_rewrites {n : Nat} (hr : Rewrites c n w out) {post : List Insn}
    (h : PackClear E post) : PackClear E (out.map Prod.snd ++ post).tail := by
  cases hr with
  | unpack hw hs ha => simpa using h
  | @unequal a b t hw ha hb _ =>
    apply PackClear.tail
    rw [map_snd_numbered]
    simp only [Axis.all, List.flatMap_cons, List.flatMap_nil, List.append_nil, List.append_assoc]
    apply packClear_compareParts hb
    apply packClear_compareParts hb
    exact packClear_compareParts hb .z _ t h
  | @equal a b t hw ha hb _ =>
    apply PackClear.tail
    rw [List.map_append, map_snd_numbered]
    simp only [List.append_assoc]
    apply packClear_compareParts hb
    apply packClear_compareParts hb
    apply packClear_compareParts hb
    exact PackClear.cons_other (by simp) h
  | @store load part slot hw hp hs =>
    apply PackClear.tail
    rw [map_snd_numbered]
    simp only [Axis.all, List.flatMap_cons, List.flatMap_nil, List.append_nil, List.append_assoc,
      List.cons_append]
    apply packClear_part hp
    apply packClear_part hp
    exact packClear_part hp .z _ h

/-! ## What is put in -/

/-- The instructions that patterns put in: pushes that were there, loads and stores of parts, accessors, sums and parts
of the sentinel, and tests that branch to a new label or to where the window did. -/
inductive Produced (c : ExpansionContext) (w out : List (InsnId × Insn)) : Insn → Prop
  | kept {x : Insn} (h : x ∈ w.map Prod.snd) (hx : x.isIntPush = true ∨ x.isRefPush = true) : Produced c w out x
  | part {op : Opcode} {slot : Int} (h : op = .iload ∨ op = .istore) (hs : c.slots.isFirst slot = true) (axis : Axis) :
      Produced c w out (.var op (slot + axis.index))
  | accessor {m : Member} (h : c.catalog.Shaped → m.desc = ("()I" : Text)) : Produced c w out (.ofAccessor m)
  | add : Produced c w out (.plain .iadd)
  | sentinel {v : Int32} : Produced c w out (.ldc (.int v))
  | label : Produced c w out .label
  | test {op : Opcode} {t : InsnId} (hop : op = .ifIcmpne ∨ op = .ifIcmpeq)
      (h : (t, .label) ∈ out ∨ ∃ op', .jump op' t ∈ w.map Prod.snd) : Produced c w out (.jump op t)

/-- The part of an operand is loaded from its slot, or a part of the sentinel. -/
theorem produced_narrow {x : Insn} (hx : c.isOperand x = true) (axis : Axis) : Produced c w out (c.narrow x axis) := by
  rcases isOperand_iff.mp hx with ⟨slot, rfl, hs⟩ | rfl
  · exact .part (.inl rfl) hs axis
  · exact .sentinel

theorem produced_compareParts {a b : Insn} (ha : c.isOperand a = true) (hb : c.isOperand b = true) (axis : Axis)
    {op : Opcode} (hop : op = .ifIcmpne ∨ op = .ifIcmpeq) {t : InsnId}
    (ht : (t, .label) ∈ out ∨ ∃ op', .jump op' t ∈ w.map Prod.snd) :
    ∀ x ∈ compareParts c a b axis op t, Produced c w out x := by
  simp only [compareParts, List.mem_cons, List.not_mem_nil, or_false]
  rintro x (rfl | rfl | rfl)
  · exact produced_narrow ha axis
  · exact produced_narrow hb axis
  · exact .test hop ht

theorem produced_part {load : List Insn} {part : Axis → List Insn} (hp : Parts c load part)
    (hw : ∀ x ∈ load, x ∈ w.map Prod.snd) (axis : Axis) : ∀ x ∈ part axis, Produced c w out x := by
  intro x hpart
  cases hp.partInsn axis x hpart with
  | narrow hx => exact produced_narrow hx axis
  | push hmem hx => exact .kept (hw x hmem) hx
  | offset ho => exact .accessor fun hcat => (hcat.offset _ ho).axes axis
  | accessor he ha => exact .accessor fun hcat => hcat.accessor_desc he ha axis
  | add => exact .add

/-- Whatever a pattern puts in is of one of these forms. -/
theorem produced_of_rewrites {n : Nat} (hr : Rewrites c n w out) : ∀ x ∈ out.map Prod.snd, Produced c w out x := by
  intro x hx
  cases hr with
  | @unpack slot op m itf axis hw hs ha =>
    rw [map_snd_numbered, List.mem_singleton] at hx
    rw [hx]
    exact .part (.inl rfl) hs axis
  | unequal hw ha hb _ =>
    rw [map_snd_numbered, List.mem_flatMap] at hx
    obtain ⟨axis, -, hx⟩ := hx
    exact produced_compareParts ha hb axis (.inl rfl) (.inr ⟨.ifne, by simp [hw]⟩) x hx
  | equal hw ha hb _ =>
    rw [List.map_append, map_snd_numbered, List.mem_append, List.mem_append, List.mem_append] at hx
    rcases hx with ((hx | hx) | hx) | hx
    · exact produced_compareParts ha hb .x (.inl rfl) (.inl (by simp)) x hx
    · exact produced_compareParts ha hb .y (.inl rfl) (.inl (by simp)) x hx
    · exact produced_compareParts ha hb .z (.inr rfl) (.inr ⟨.ifeq, by simp [hw]⟩) x hx
    · rw [List.map_singleton, List.mem_singleton] at hx
      rw [hx]
      exact .label
  | store hw hp hs =>
    rw [map_snd_numbered, List.mem_flatMap] at hx
    obtain ⟨axis, -, hx⟩ := hx
    rcases List.mem_append.mp hx with hx | hx
    · exact produced_part hp (fun y hy => by rw [hw]; exact List.mem_append_left _ hy) axis x hx
    · rw [List.mem_singleton.mp hx]
      exact .part (.inr rfl) hs axis

end Machine

/-! ## The invariant of a scan -/

open Machine

/-- What holds of a code when a scan has come to place `i`: it can go on from there. -/
structure ScanReady (c : ExpansionContext) (E : IndexSet) (code : Code) (i : Nat) : Prop where
  linked : code.WellLinked
  placed : ∀ op j, .var op j ∈ code.listing.map Prod.snd → op ≠ .iload → op ≠ .istore → SlotMap.Placed E op j
  calls : ∀ op m itf, .call op m itf ∈ code.listing.map Prod.snd → c.catalog.CallFits op m
  targets : ∀ x ∈ code.listing.map Prod.snd, ∀ t ∈ x.targets, (t, .label) ∈ code.listing
  packClear : PackClear E ((code.listing.drop (i + 1)).map Prod.snd)

namespace Pattern

variable {c : ExpansionContext} {E : IndexSet} {w out : List (InsnId × Insn)} {n : Nat}

/-- No label is taken out. -/
theorem Rewrites.not_label (h : Rewrites c n w out) : ∀ p ∈ w, p.2.isLabel = false :=
  fun p hp => (h.loose p.2 (List.mem_map_of_mem hp)).1

theorem Rewrites.ne_nil (h : Rewrites c n w out) : w ≠ [] := by
  rintro rfl
  cases h <;> simp at *

/-- Behind the start of a window, only a window that packs has loads of ints. -/
theorem Rewrites.clear (h : Rewrites c n w out) {post : List Insn} (hs : PackClear E (w.map Prod.snd ++ post).tail) :
    ∀ j, .var .iload j ∈ (w.map Prod.snd).tail → SlotMap.Clear E j := by
  have hoperand : ∀ {x : Insn} {j : Int}, c.isOperand x = true → x ≠ .var .iload j := by
    rintro x j hx rfl
    simp [ExpansionContext.isOperand, ExpansionContext.isPackedLoad, ExpansionContext.isSentinel] at hx
  cases h with
  | unpack hw _ ha => simp [hw]
  | @unequal a b t hw ha hb _ =>
    intro j hj
    simp only [hw, List.tail_cons, List.mem_cons, reduceCtorEq, List.not_mem_nil, or_false] at hj
    exact absurd hj.symm (hoperand hb)
  | @equal a b t hw ha hb _ =>
    intro j hj
    simp only [hw, List.tail_cons, List.mem_cons, reduceCtorEq, List.not_mem_nil, or_false] at hj
    exact absurd hj.symm (hoperand hb)
  | @store load part slot hw hp _ =>
    intro j hj
    rw [hw] at hj hs
    cases hp with
    | @offset x r op itf o ho hx hr =>
      simp only [List.cons_append, List.nil_append, List.tail_cons, List.mem_cons, reduceCtorEq,
        Insn.var.injEq, false_and, List.not_mem_nil, or_false] at hj
      rw [← hj] at hr
      simp [Insn.isRefPush] at hr
    | sentinel hx => simp at hj
    | accessors he ha => simp at hj
    | @pack x y z m itf e he hpack hx hy hz =>
      refine PackClear.clear_of_pack hs hz j ?_
      simpa using hj
    | copy hx => simp at hj

end Pattern

section Scan

variable {c : ExpansionContext} {E : IndexSet} {code code' : Code} {i j : Nat}

/-- The instructions of a window fit, if the code before the replacement was as it should be. -/
theorem ScanReady.fit {pre w out post : List (InsnId × Insn)} (h : ScanReady c E code i)
    (hlisting : code.listing = pre ++ w ++ post) (hr : Rewrites c code.nodes.size w out)
    (hs : PackClear E ((w ++ post).map Prod.snd).tail) : Fit c E code.nodes.size (w.map Prod.snd) := by
  have hmem : ∀ x ∈ w.map Prod.snd, x ∈ code.listing.map Prod.snd := by
    intro x hx
    rw [hlisting, List.map_append, List.map_append]
    simp [hx]
  refine ⟨⟨?_, ?_, ?_⟩, ?_⟩
  · exact fun op j hj => h.placed op j (hmem _ hj)
  · rw [List.map_append] at hs
    exact hr.clear hs
  · exact fun op m itf hm => h.calls op m itf (hmem _ hm)
  · intro op t ht
    have hlabel := h.targets _ (hmem _ ht) t (by simp [Insn.targets])
    have hid : t ∈ code.listing.map Prod.fst := List.mem_map_of_mem hlabel
    exact (h.linked.id_lt hid).2

/-- A replacement keeps the invariant. -/
theorem ScanReady.replaced {pre w out post : List (InsnId × Insn)} (h : ScanReady c E code i)
    (hcat : c.catalog.Shaped) (hlisting : code.listing = pre ++ w ++ post)
    (hr : Rewrites c code.nodes.size w out) (hnew : code'.Holds (pre ++ out ++ post))
    (hj : pre.length = j) (hs : PackClear E ((w ++ post).map Prod.snd).tail) : ScanReady c E code' j := by
  have hlisting' : code'.listing = pre ++ out ++ post := hnew.listing_eq
  -- an instruction of the new code was there before, or a pattern put it in
  have hcases : ∀ x ∈ code'.listing.map Prod.snd, x ∈ code.listing.map Prod.snd ∨ Produced c w out x := by
    intro x hx
    rw [hlisting', List.map_append, List.map_append, List.mem_append, List.mem_append] at hx
    rw [hlisting, List.map_append, List.map_append]
    rcases hx with (hx | hx) | hx
    · exact .inl (by simp [hx])
    · exact .inr (produced_of_rewrites hr x hx)
    · exact .inl (by simp [hx])
  have hkept : ∀ x ∈ w.map Prod.snd, x ∈ code.listing.map Prod.snd := by
    intro x hx
    rw [hlisting, List.map_append, List.map_append]
    simp [hx]
  have hlabels : ∀ t, (t, .label) ∈ code.listing → (t, .label) ∈ code'.listing := by
    intro t ht
    rw [hlisting, List.mem_append, List.mem_append] at ht
    rw [hlisting', List.mem_append, List.mem_append]
    rcases ht with (ht | ht) | ht
    · exact .inl (.inl ht)
    · exact absurd (hr.not_label _ ht) (by simp [Insn.isLabel])
    · exact .inr ht
  refine ⟨hnew.wellLinked, ?_, ?_, ?_, ?_⟩
  · intro op k hk hload hstore
    rcases hcases _ hk with hold | hput
    · exact h.placed op k hold hload hstore
    · cases hput with
      | kept hw => exact h.placed op _ (hkept _ hw) hload hstore
      | part hop => exact absurd hop (not_or.mpr ⟨hload, hstore⟩)
  · intro op m itf hm
    rcases hcases _ hm with hold | hput
    · exact h.calls op m itf hold
    · cases hput with
      | kept hw => exact h.calls op m itf (hkept _ hw)
      | accessor hdesc =>
        have hdesc := hdesc hcat
        refine ⟨?_, ?_, ?_⟩
        · intro hunpack
          rw [hcat.unpackAxis?_eq_none (hdesc ▸ parse_accessorDesc) (by decide)] at hunpack
          exact absurd hunpack (by simp)
        · intro hoffset
          rw [hcat.not_isOffset_of_accessor hdesc] at hoffset
          exact absurd hoffset (by simp)
        · intro e he ha
          rfl
  · intro x hx t ht
    rcases hcases x hx with hold | hput
    · exact hlabels t (h.targets x hold t ht)
    · cases hput with
      | kept hw => exact hlabels t (h.targets x (hkept x hw) t ht)
      | test _ hgoal =>
        simp only [Insn.targets, List.mem_singleton] at ht
        subst ht
        rcases hgoal with hgoal | ⟨op', hgoal⟩
        · rw [hlisting']
          simp [hgoal]
        · exact hlabels t (h.targets _ (hkept _ hgoal) t (by simp [Insn.targets]))
      | _ => simp [Insn.targets, Insn.ofAccessor] at ht
  · have hpost : PackClear E (post.map Prod.snd) := by
      rw [List.map_append, List.tail_append_of_ne_nil (by simpa using hr.ne_nil)] at hs
      exact hs.of_append
    have hdrop : (pre ++ (out ++ post)).drop (pre.length + 1) = (out ++ post).tail := by
      rw [← List.drop_one, ← List.drop_drop, List.drop_left]
    rw [hlisting', ← hj, List.append_assoc, hdrop, List.map_tail, List.map_append]
    exact packClear_rewrites hr hpost

/-- One step of a scan: a window fits and gives way to what a pattern puts in. -/
theorem ScanReady.step (h : ScanReady c E code i) (hcat : c.catalog.Shaped) {p : Pattern}
    (hc : applyNext c code i (code.listing.drop i) = .ok (some (j, p, code'))) :
    ∃ pre w out post, code.listing = pre ++ w ++ post ∧ code'.listing = pre ++ out ++ post ∧
      pre.length = j ∧ Rewrites c code.nodes.size w out ∧ Fit c E code.nodes.size (w.map Prod.snd) ∧
      ScanReady c E code' j := by
  obtain ⟨pre, w, out, post, hlisting, hi, hj, hr, hnew⟩ := applyNext_rewrites h.linked hc
  -- what is clear behind place `i` is clear behind every later place
  have hclear : PackClear E ((w ++ post).map Prod.snd).tail := by
    have htail : (w ++ post).tail = (code.listing.drop (i + 1)).drop (pre.length - i) := by
      rw [List.drop_drop, hlisting, List.append_assoc, show i + 1 + (pre.length - i) = pre.length + 1 by omega,
        ← List.drop_drop, List.drop_left, List.drop_one]
    have hsub : ((code.listing.drop (i + 1)).map Prod.snd) =
        ((code.listing.drop (i + 1)).map Prod.snd).take (pre.length - i) ++ ((w ++ post).map Prod.snd).tail := by
      rw [← List.map_tail, htail, ← List.map_take, ← List.map_append, List.take_append_drop]
    exact (hsub ▸ h.packClear).of_append
  exact ⟨pre, w, out, post, hlisting, hnew.listing_eq, hj, hr, h.fit hlisting hr hclear,
    h.replaced hcat hlisting hr hnew hj hclear⟩

/-- Every replacement of a scan is a step from a code that the scan could go on with. -/
theorem ScanReady.of_mem_scanRewrites (h : ScanReady c E code i) (hcat : c.catalog.Shaped) {fuel : Nat}
    {r : Rewrite} (hr : r ∈ PatternRun.scanRewrites c fuel i code) :
    ∃ k, ScanReady c E r.before k ∧
      applyNext c r.before k (r.before.listing.drop k) = .ok (some (r.place, r.pattern, r.after)) := by
  refine PatternRun.of_mem_scanRewrites ?_ h hr
  intro code next i j p hready hnext
  obtain ⟨-, -, -, -, -, -, -, -, -, hnew⟩ := hready.step hcat hnext
  exact hnew

end Scan

/-! ## Moved code -/

/-- All branches of a code lead to labels of it. -/
def Code.BranchesToLabels (code : Code) : Prop :=
  ∀ x ∈ code.listing.map Prod.snd, ∀ t ∈ x.targets, (t, .label) ∈ code.listing

/-- All calls of a code that a catalog knows are made as they should be. -/
def Code.CallsFit (code : Code) (cat : Catalog) : Prop :=
  ∀ op m itf, .call op m itf ∈ code.listing.map Prod.snd → cat.CallFits op m

theorem PackClear.of_forall_clear {E : IndexSet} {xs : List Insn}
    (h : ∀ j, .var .iload j ∈ xs → SlotMap.Clear E j) : PackClear E xs := by
  induction xs with
  | nil => trivial
  | cons x xs ih =>
    refine ⟨?_, ih fun j hj => h j (by simp [hj])⟩
    rintro j rfl
    exact .inl (h j (by simp))

/-- A scan can start on a code whose slots have been moved without a refusal. -/
theorem ScanReady.of_moved {cat : Catalog} {E : IndexSet} {code : Code} (hcode : code.WellLinked)
    (hbranches : code.BranchesToLabels) (hcalls : code.CallsFit cat)
    (hok : ((SlotMap.ofSlots E).apply code).refused = none) :
    ScanReady ⟨cat, .ofSlots E⟩ E ((SlotMap.ofSlots E).apply code).code 0 := by
  obtain ⟨hholds, -, haccess⟩ := SlotMap.apply_holds hcode hok
  have hlisting := hholds.listing_eq
  have hmem : ∀ y ∈ ((SlotMap.ofSlots E).apply code).code.listing.map Prod.snd,
      ∃ p ∈ code.listing, y = (SlotMap.ofSlots E).mapInsn p.2 := by
    intro y hy
    simp only [hlisting, List.map_map, List.mem_map, Function.comp_apply] at hy
    obtain ⟨p, hp, rfl⟩ := hy
    exact ⟨p, hp, rfl⟩
  have hplaced : ∀ op j, .var op j ∈ ((SlotMap.ofSlots E).apply code).code.listing.map Prod.snd →
      SlotMap.Placed E op j := by
    intro op j hj
    obtain ⟨⟨id, x⟩, hp, hx⟩ := hmem _ hj
    cases x <;> simp only [SlotMap.mapInsn, Insn.var.injEq, reduceCtorEq] at hx
    obtain ⟨rfl, rfl⟩ := hx
    exact (SlotMap.checkAccess_var_ok.mp (haccess _ hp)).placed
  refine ⟨hholds.wellLinked, fun op j hj _ _ => hplaced op j hj, ?_, ?_, ?_⟩
  · intro op m itf hm
    obtain ⟨⟨id, x⟩, hp, hx⟩ := hmem _ hm
    cases x <;> simp only [SlotMap.mapInsn, reduceCtorEq] at hx
    rw [hx] at hm
    refine hcalls op m itf ?_
    rw [hx]
    exact List.mem_map_of_mem hp
  · intro y hy t ht
    obtain ⟨⟨id, x⟩, hp, rfl⟩ := hmem _ hy
    have htargets : ((SlotMap.ofSlots E).mapInsn x).targets = x.targets := by cases x <;> rfl
    rw [htargets] at ht
    have hlabel := hbranches x (List.mem_map_of_mem hp) t ht
    rw [hlisting]
    exact List.mem_map.mpr ⟨(t, .label), hlabel, rfl⟩
  · apply PackClear.of_forall_clear
    intro j hj
    refine (hplaced .iload j ?_).clear (by decide) (by decide)
    exact List.mem_map.mpr (by
      obtain ⟨p, hp, hx⟩ := List.mem_map.mp hj
      exact ⟨p, List.mem_of_mem_drop hp, hx⟩)

/-! ## Runs -/

theorem filter_middle {α : Type} {q : α → Bool} {pre w post : List α} (hpre : ∀ x ∈ pre, q x = false)
    (hw : ∀ x ∈ w, q x = true) (hpost : ∀ x ∈ post, q x = false) : (pre ++ w ++ post).filter q = w := by
  rw [List.filter_append, List.filter_append, List.filter_eq_self.mpr hw,
    List.filter_eq_nil_iff.mpr fun x hx => by simp [hpre x hx],
    List.filter_eq_nil_iff.mpr fun x hx => by simp [hpost x hx]]
  simp

/-- What is put in has new ids. -/
theorem Pattern.Rewrites.fresh {c : ExpansionContext} {n : Nat} {w out : List (InsnId × Insn)}
    (h : Rewrites c n w out) : ∀ p ∈ out, (n : Int) ≤ p.1 := by
  intro p hp
  cases h with
  | equal hw ha hb hload =>
    rcases List.mem_append.mp hp with hp | hp
    · exact le_trans (by simp) (le_of_mem_numbered hp)
    · rw [List.mem_singleton.mp hp]
  | _ => exact le_of_mem_numbered hp

/-- The lines that a replacement took out and put in, from a description of both codes. -/
theorem Rewrite.removed_added {r : Rewrite} {c : ExpansionContext} {pre w out post : List (InsnId × Insn)}
    (hbefore : r.before.WellLinked) (hafter : r.after.WellLinked)
    (hlisting : r.before.listing = pre ++ w ++ post) (hlisting' : r.after.listing = pre ++ out ++ post)
    (hr : Rewrites c r.before.nodes.size w out) : r.removed = w ∧ r.added = out := by
  have hids : r.before.ids = pre.map Prod.fst ++ w.map Prod.fst ++ post.map Prod.fst := by
    rw [hbefore.ids_eq, hlisting, List.map_append, List.map_append]
  have hids' : r.after.ids = pre.map Prod.fst ++ out.map Prod.fst ++ post.map Prod.fst := by
    rw [hafter.ids_eq, hlisting', List.map_append, List.map_append]
  have hold : ∀ id ∈ r.before.ids, id < (r.before.nodes.size : Int) := by
    intro id hid
    rw [hbefore.ids_eq] at hid
    exact (hbefore.id_lt hid).2
  have hnodup : (pre.map Prod.fst ++ w.map Prod.fst ++ post.map Prod.fst).Nodup := by
    rw [← hids, hbefore.ids_eq]
    exact hbefore.nodup
  rw [List.append_assoc, List.nodup_append, List.nodup_append] at hnodup
  obtain ⟨-, ⟨-, -, hwpost⟩, hpre⟩ := hnodup
  constructor
  · rw [Rewrite.removed, hlisting]
    apply filter_middle
    · intro p hp
      simp [hids', List.mem_map_of_mem hp]
    · intro p hp
      have hmem : p.1 ∈ w.map Prod.fst := List.mem_map_of_mem hp
      simp only [hids', List.mem_append, not_or, decide_eq_true_eq]
      refine ⟨⟨?_, ?_⟩, ?_⟩
      · intro hin
        exact hpre p.1 hin p.1 (List.mem_append_left _ hmem) rfl
      · intro hin
        obtain ⟨q, hq, hqp⟩ := List.mem_map.mp hin
        have hlt := hold p.1 (by simp [hids, hmem])
        have hle := hr.fresh q hq
        rw [hqp] at hle
        exact absurd hlt (not_lt.mpr hle)
      · intro hin
        exact hwpost p.1 hmem p.1 hin rfl
    · intro p hp
      simp [hids', List.mem_map_of_mem hp]
  · rw [Rewrite.added, hlisting']
    apply filter_middle
    · intro p hp
      simp [hids, List.mem_map_of_mem hp]
    · intro p hp
      rw [decide_eq_true_eq]
      intro hin
      exact absurd (hold p.1 hin) (not_lt.mpr (hr.fresh p hp))
    · intro p hp
      simp [hids, List.mem_map_of_mem hp]

/-- Replacing patterns preserves meaning. Let the slots of a code, whose branches lead to labels and whose
calls are made as the catalog asks for, be moved without a refusal. Then a run of the patterns on it makes
the replacements of its trace, and each of them replaces, at its place, the lines taken out by the lines put
in; from every state, both run to the same stack, the same locals and the same place. -/
theorem PatternRun.rewrites_run_eq {spec : CatalogSpec} {cat : Catalog} (hcat : spec.build = .ok cat)
    {E : IndexSet} {code : Code} (hcode : code.WellLinked) (hbranches : code.BranchesToLabels)
    (hcalls : code.CallsFit cat) (hok : ((SlotMap.ofSlots E).apply code).refused = none) :
    let c : ExpansionContext := ⟨cat, .ofSlots E⟩
    let moved := (c.slots.apply code).code
    (PatternRun.ofCode c moved).code = ((rewrites c moved).getLast?.map Rewrite.after).getD moved ∧
    (PatternRun.ofCode c moved).applied.reverse = (rewrites c moved).map Rewrite.pattern ∧
    ∀ r ∈ rewrites c moved, ∃ pre post, pre.length = r.place ∧
      r.before.listing = pre ++ r.removed ++ post ∧ r.after.listing = pre ++ r.added ++ post ∧
      ∀ (R W : Type) (M : Machine.Meaning R W) (s : Machine.State R W),
        ∃ e, Machine.run c M none r.removed s = some e ∧ Machine.run c M none r.added s = some e := by
  intro c moved
  have hshaped := CatalogSpec.build_shaped hcat
  have hready : ScanReady c E moved 0 := ScanReady.of_moved hcode hbranches hcalls hok
  obtain ⟨hlast, happlied⟩ := scan_eq_rewrites c (packedAccesses c moved + 1) 0 ⟨moved, [], none⟩
  refine ⟨hlast, ?_, ?_⟩
  · rw [PatternRun.ofCode, happlied, List.append_nil, List.reverse_reverse]
    rfl
  · intro r hr
    obtain ⟨k, hbefore, hnext⟩ := hready.of_mem_scanRewrites hshaped hr
    obtain ⟨pre, w, out, post, hlisting, hlisting', hlength, hrewrites, hfit, hafter⟩ :=
      hbefore.step hshaped hnext
    obtain ⟨hremoved, hadded⟩ :=
      Rewrite.removed_added hbefore.linked hafter.linked hlisting hlisting' hrewrites
    rw [hremoved, hadded]
    exact ⟨pre, post, hlength, hlisting, hlisting', fun R W M s => hfit.run_eq hrewrites hshaped rfl s⟩

/-! ## A code with two windows -/

namespace TwoWindows

/-- A description that names only what takes an axis out. -/
def spec : CatalogSpec where
  unpacking := ["P#x (J)I", "P#y (J)I", "P#z (J)I"]

/-- The catalog of the description. -/
def catalog : Catalog :=
  ⟨[], ⟨⟨"P", "x", "(J)I"⟩, ⟨"P", "y", "(J)I"⟩, ⟨"P", "z", "(J)I"⟩⟩, none, CatalogSpec.defaultSentinel⟩

/-- The instructions take an axis out of the coordinate in slot 0, and compare it with the sentinel. -/
def insns : List Insn :=
  [.var .lload 0, .call .invokestatic ⟨"P", "x", "(J)I"⟩ false, .plain .pop, .var .lload 0,
    .ldc (.long Int64.maxValue), .plain .lcmp, .jump .ifeq 7, .label, .plain .returnVoid]

theorem spec_build : spec.build = .ok catalog := by
  apply except_ok_of_toOption
  decide +kernel

theorem branchesToLabels : (Code.ofList insns).BranchesToLabels := by
  rw [Code.BranchesToLabels, (holds_ofList insns).listing_eq, map_snd_numbered]
  decide

theorem callsFit : (Code.ofList insns).CallsFit catalog := by
  rw [Code.CallsFit, (holds_ofList insns).listing_eq, map_snd_numbered]
  intro op m itf hm
  simp only [insns, List.mem_cons, Insn.call.injEq, reduceCtorEq, List.not_mem_nil, or_false, false_or] at hm
  obtain ⟨rfl, -, -⟩ := hm
  refine ⟨fun _ => rfl, fun _ => rfl, ?_⟩
  intro e he
  simp [Catalog.lookup, catalog] at he

/-- Both windows are replaced, and both replacements preserve meaning. -/
theorem rewrites_run_eq_twoWindows :
    let c : ExpansionContext := ⟨catalog, .ofSlots (.singleton 0)⟩
    let rs := PatternRun.rewrites c (c.slots.apply (Code.ofList insns)).code
    rs.map Rewrite.pattern = [.unpack, .compare] ∧
    ∀ r ∈ rs, ∀ (R W : Type) (M : Machine.Meaning R W) (s : Machine.State R W),
      ∃ e, Machine.run c M none r.removed s = some e ∧ Machine.run c M none r.added s = some e := by
  intro c rs
  have hok : ((SlotMap.ofSlots (.singleton 0)).apply (Code.ofList insns)).refused.isNone = true := by
    decide +kernel
  obtain ⟨-, -, h⟩ := PatternRun.rewrites_run_eq spec_build (holds_ofList insns).wellLinked branchesToLabels
    callsFit (Option.isNone_iff_eq_none.mp hok)
  refine ⟨by decide +kernel, ?_⟩
  intro r hr R W M s
  obtain ⟨-, -, -, -, -, hrun⟩ := h r hr
  exact hrun R W M s

end TwoWindows

end CoordSplit
