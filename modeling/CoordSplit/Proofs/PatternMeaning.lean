import CoordSplit.Proofs.CatalogShape
import CoordSplit.Proofs.Machine
import CoordSplit.Proofs.MovedCode
import CoordSplit.Proofs.PatternRules

/-!
# Replacing patterns preserves meaning

Running the instructions that a pattern puts in does the same to the stack and the locals, and leads to the
same place, as running those that it takes out. The parts of a coordinate are stored one after the other,
while the parts to come are still being read, so this needs that no part is read from a slot that has been
written by then. Slots of accepted instructions are never among the three slots of another expanded one
(`SlotMap.Accepted`). Loads of single parts, which patterns produce, are: but a scan goes from left to right
and leaves behind no such load where a later window could take it for the second or the third operand
(`Settled`).
-/

set_option autoImplicit false

namespace CoordSplit

open Code Pattern

namespace Machine

variable {R W : Type} {c : ExpansionContext} {M : Meaning R W}

variable {x a b : Insn} {s : State R W} {w : List (InsnId × Insn)}

theorem exists_line {ls : List (InsnId × Insn)} {xs : List Insn} (h : ls.map Prod.snd = x :: xs) :
    ∃ id rest, ls = (id, x) :: rest ∧ rest.map Prod.snd = xs := by
  obtain ⟨p, rest, rfl, rfl, hrest⟩ := List.map_eq_cons_iff.mp h
  exact ⟨p.1, rest, rfl, hrest⟩

/-! ## Operands -/

/-- The coordinate that an operand pushes. -/
def operand (c : ExpansionContext) (M : Meaning R W) (s : State R W) : Insn → Coord
  | .var _ slot => s.triple M slot
  | _ => .ofParts fun _ => c.catalog.sentinel.narrow

theorem operand_congr {s' : State R W} (h : s'.locals = s.locals) (x : Insn) : operand c M s' x = operand c M s x := by
  cases x <;> simp [operand, State.triple, h]

theorem isPackedLoad_iff : c.isPackedLoad x = true ↔ ∃ slot, x = .var .lload slot ∧ c.slots.isFirst slot = true := by
  constructor
  · intro h
    unfold ExpansionContext.isPackedLoad at h
    split at h
    · exact ⟨_, rfl, h⟩
    · simp at h
  · rintro ⟨slot, rfl, h⟩
    exact h

theorem isSentinel_iff : c.isSentinel x = true ↔ x = .ldc (.long c.catalog.sentinel.packed) := by
  constructor
  · intro h
    unfold ExpansionContext.isSentinel at h
    split at h
    · rw [decide_eq_true_eq] at h
      rw [h]
    · simp at h
  · rintro rfl
    simp [ExpansionContext.isSentinel]

theorem isOperand_iff : c.isOperand x = true ↔
    (∃ slot, x = .var .lload slot ∧ c.slots.isFirst slot = true) ∨
      x = .ldc (.long c.catalog.sentinel.packed) := by
  rw [ExpansionContext.isOperand, Bool.or_eq_true, isPackedLoad_iff, isSentinel_iff]

/-- An operand pushes its coordinate. -/
theorem exec_operand (h : c.isOperand x = true) (s : State R W) :
    exec c M x s = s.push (.packed (operand c M s x)) := by
  rcases isOperand_iff.mp h with ⟨slot, rfl, hs⟩ | rfl
  · simp [exec, execVar, hs, operand]
  · simp [exec, operand]

/-- The instruction for a part of an operand pushes that part, as long as the slot of the part is kept. -/
theorem exec_narrow {x : Insn} (h : c.isOperand x = true) {s s' : State R W} (axis : Axis)
    (hslot : ∀ slot, x = .var .lload slot → s'.locals (slot + axis.index) = s.locals (slot + axis.index)) :
    exec c M (c.narrow x axis) s' = s'.push (.int ((operand c M s x).get axis)) := by
  rcases isOperand_iff.mp h with ⟨slot, rfl, hs⟩ | rfl
  · simp [ExpansionContext.narrow, exec, execVar, operand, State.triple, hslot slot rfl]
  · simp [ExpansionContext.narrow, exec, operand]

/-! ## Comparing -/

/-- The test of two parts is the test of the parts of the two operands. -/
theorem run_compareParts (ha : c.isOperand a = true) (hb : c.isOperand b = true) (axis : Axis)
    (op : Opcode) (t : InsnId) (n : Nat) (s : State R W) :
    run c M none (numbered n (compareParts c a b axis op t)) s =
      execJump op t { s with
        stack := .int ((operand c M s b).get axis) :: .int ((operand c M s a).get axis) :: s.stack } := by
  have hfirst := @exec_narrow R W c M a ha s s axis fun _ _ => rfl
  have hsecond := @exec_narrow R W c M b hb s { s with stack := .int ((operand c M s a).get axis) :: s.stack }
    axis fun _ _ => rfl
  rw [compareParts, numbered_cons, numbered_cons, numbered_cons, numbered_nil, run_cons_of hfirst,
    run_cons_of hsecond, run_singleton]
  rfl

/-- A window that compares two operands tests whether they are equal. -/
theorem run_compare
    (hw : w.map Prod.snd = [a, b, .plain .lcmp, x]) (ha : c.isOperand a = true) (hb : c.isOperand b = true)
    (s : State R W) :
    run c M none w s = exec c M x { s with
      stack := .int (M.compare (operand c M s a) (operand c M s b)) :: s.stack } := by
  obtain ⟨i, w₁, rfl, hw₁⟩ := exists_line hw
  obtain ⟨j, w₂, rfl, hw₂⟩ := exists_line hw₁
  obtain ⟨k, w₃, rfl, hw₃⟩ := exists_line hw₂
  obtain ⟨l, w₄, rfl, hw₄⟩ := exists_line hw₃
  rw [List.map_eq_nil_iff.mp hw₄, run_cons_of (exec_operand ha s), run_cons_of (exec_operand hb _), run_cons,
    operand_congr rfl]
  simp only [exec, execPlain, Option.bind_some]
  exact run_singleton l x _

/-- Two coordinates compare as equal iff their parts are equal. -/
theorem Meaning.compare_eq_zero_iff (M : Meaning R W) (p q : Coord) :
    M.compare p q = 0 ↔ (p.x = q.x ∧ p.y = q.y) ∧ p.z = q.z := by
  rw [M.compare_eq_zero, Coord.ext_iff, and_assoc]

/-- Lines with new ids are skipped on the way to an old one. -/
theorem run_numbered_of_lt {t : InsnId} {n k : Nat} (ht : t < n) (hk : n ≤ k) (xs : List Insn) (s : State R W) :
    run c M (some t) (numbered k xs) s = some (some t, s) := by
  refine run_of_forall_ne (fun l hl => ?_) s
  have hle : (n : Int) ≤ l.1 := le_trans (by exact_mod_cast hk) (le_of_mem_numbered hl)
  exact (lt_of_lt_of_le ht hle).ne'

/-- The tests of the first two parts go on if both are equal. -/
theorem run_leadingParts {t : InsnId} {n : Nat} (ha : c.isOperand a = true) (hb : c.isOperand b = true) (ht : t < n)
    (rest : List (InsnId × Insn)) (s : State R W) :
    run c M none (numbered n (compareParts c a b .x .ifIcmpne t ++ compareParts c a b .y .ifIcmpne t) ++ rest) s =
      run c M (if (operand c M s a).x = (operand c M s b).x ∧ (operand c M s a).y = (operand c M s b).y then none
        else some t) rest s := by
  have hpart : ∀ axis k, run c M none (numbered k (compareParts c a b axis .ifIcmpne t)) s =
      branch ((operand c M s a).get axis != (operand c M s b).get axis) t s := by
    intro axis k
    rw [run_compareParts ha hb]
    rfl
  rw [numbered_append, List.append_assoc, run_append, hpart, branch]
  by_cases hx : (operand c M s a).x = (operand c M s b).x
  · by_cases hy : (operand c M s a).y = (operand c M s b).y <;> simp [run_append, hpart, branch, Coord.get, hx, hy]
  · -- once a branch is taken, the test behind it is skipped
    simp [run_append, run_numbered_of_lt ht (Nat.le_add_right _ _), Coord.get, hx]

/-- A window that branches if two operands differ may test their parts one after the other. -/
theorem run_unequal {t : InsnId} {n : Nat}
    (hw : w.map Prod.snd = [a, b, .plain .lcmp, .jump .ifne t]) (ha : c.isOperand a = true)
    (hb : c.isOperand b = true) (ht : t < n) (s : State R W) :
    ∃ r, run c M none w s = some r ∧
      run c M none (numbered n (Axis.all.flatMap fun axis => compareParts c a b axis .ifIcmpne t)) s = some r := by
  have hcompare := M.compare_eq_zero_iff (operand c M s a) (operand c M s b)
  refine ⟨_, run_compare hw ha hb s, ?_⟩
  simp only [Axis.all, List.flatMap_cons, List.flatMap_nil, List.append_nil]
  rw [← List.append_assoc, numbered_append, run_leadingParts ha hb ht]
  by_cases heq : (operand c M s a).x = (operand c M s b).x ∧ (operand c M s a).y = (operand c M s b).y
  · rw [if_pos heq, run_compareParts ha hb]
    simp [execJump, branch, Coord.get, bne, hcompare, heq]
  · rw [if_neg heq, run_numbered_of_lt ht (Nat.le_add_right _ _)]
    simp [hcompare, heq]

/-- A window that branches if two operands are equal may test their parts one after the other, and skip the
tests to come at the first part that differs. -/
theorem run_equal {t : InsnId} {n : Nat}
    (hw : w.map Prod.snd = [a, b, .plain .lcmp, .jump .ifeq t]) (ha : c.isOperand a = true)
    (hb : c.isOperand b = true) (ht : t < n) (s : State R W) :
    ∃ r, run c M none w s = some r ∧
      run c M none (numbered (n + 1) (compareParts c a b .x .ifIcmpne n ++ compareParts c a b .y .ifIcmpne n ++
        compareParts c a b .z .ifIcmpeq t) ++ [((n : Int), .label)]) s = some r := by
  have hcompare := M.compare_eq_zero_iff (operand c M s a) (operand c M s b)
  have hn : ((n : Int) : InsnId) < (n + 1 : Nat) := by exact_mod_cast Nat.lt_succ_self n
  refine ⟨_, run_compare hw ha hb s, ?_⟩
  rw [numbered_append, List.append_assoc, run_leadingParts ha hb hn, run_append]
  by_cases heq : (operand c M s a).x = (operand c M s b).x ∧ (operand c M s a).y = (operand c M s b).y
  · rw [if_pos heq, run_compareParts ha hb]
    by_cases hz : (operand c M s a).z = (operand c M s b).z
    · simp [execJump, branch, Coord.get, hcompare, heq, hz, run, ht.ne']
    · simp [exec, execJump, branch, Coord.get, hcompare, heq, hz]
  · -- a part that differs leads to the label behind the tests
    rw [if_neg heq, run_numbered_of_lt hn (Nat.le_add_right _ _)]
    simp [run, exec, hcompare, heq]

/-! ## Storing parts -/

/-- A state that differs from another only in slots of a triple that come before the part of an axis. -/
structure WrittenBefore (slot : Int) (axis : Axis) (s s' : State R W) : Prop where
  stack : s'.stack = s.stack
  locals : ∀ j, (∀ k : Nat, k < axis.index → j ≠ slot + k) → s'.locals j = s.locals j

/-- Getting and storing the parts one by one stores the coordinate, if no part is read from a slot that the
parts before it were written to. -/
theorem run_storeParts {part : Axis → List Insn} {slot : Int} {p : Coord} (n : Nat)
    (hpart : ∀ axis s', WrittenBefore slot axis s s' → ∀ k,
      run c M none (numbered k (part axis)) s' = s'.push (.int (p.get axis))) :
    run c M none (numbered n (Axis.all.flatMap fun axis => part axis ++ [.var .istore (slot + axis.index)])) s =
      some (none, s.setTriple M slot p) := by
  have hstep : ∀ axis s', WrittenBefore slot axis s s' → ∀ k,
      run c M none (numbered k (part axis ++ [.var .istore (slot + axis.index)])) s' =
        some (none, s'.setLocal (slot + axis.index) (M.ofInt (p.get axis))) := by
    intro axis s' hs' k
    rw [numbered_append, run_append, hpart axis s' hs', numbered_cons, numbered_nil]
    simp only [State.push, Option.bind_some]
    rw [run_singleton]
    rfl
  simp only [Axis.all, List.flatMap_cons, List.flatMap_nil, List.append_nil]
  rw [numbered_append, run_append, hstep .x s ⟨rfl, fun _ _ => rfl⟩]
  simp only [Option.bind_some]
  rw [numbered_append, run_append, hstep .y]
  · simp only [Option.bind_some]
    rw [hstep .z]
    · rfl
    · refine ⟨rfl, ?_⟩
      intro j hj
      simp only [State.setLocal]
      rw [Function.update_of_ne (hj Axis.y.index (by decide)), Function.update_of_ne (hj Axis.x.index (by decide))]
  · refine ⟨rfl, ?_⟩
    intro j hj
    simp only [State.setLocal]
    rw [Function.update_of_ne (hj Axis.x.index (by decide))]

/-! ## What pushes a part -/

/-- What pushes an int pushes the same, if its slot is kept. -/
theorem exec_intPush (h : x.isIntPush = true) (s : State R W) :
    ∃ v, ∀ s' : State R W, (∀ j, x = .var .iload j → s'.locals j = s.locals j) → ∀ stack,
      exec c M x ⟨stack, s'.locals⟩ = some (none, ⟨.int v :: stack, s'.locals⟩) := by
  cases x with
  | var op slot =>
    simp only [Insn.isIntPush, decide_eq_true_eq] at h
    subst h
    refine ⟨M.toInt (s.locals slot), ?_⟩
    intro s' hs' stack
    simp [exec, execVar, State.push, hs' slot rfl]
  | push op value =>
    simp only [Insn.isIntPush, Bool.or_eq_true, decide_eq_true_eq] at h
    exact ⟨value, fun s' _ stack => by simp [exec, State.push, h]⟩
  | plain op =>
    have hconst : ∃ v, ∀ s' : State R W, execPlain M op s' = s'.push (.int v) := by
      cases op <;> simp [Insn.isIntPush, Opcode.isIntConst] at h
      all_goals exact ⟨_, fun s' => rfl⟩
    obtain ⟨v, hv⟩ := hconst
    exact ⟨v, fun s' _ stack => hv ⟨stack, s'.locals⟩⟩
  | ldc value =>
    cases value with
    | int v => exact ⟨v, fun s' _ stack => rfl⟩
    | _ => simp [Insn.isIntPush] at h
  | _ => simp [Insn.isIntPush] at h

/-- So does what pushes a reference. -/
theorem exec_refPush (h : x.isRefPush = true) (s : State R W) :
    ∃ r, ∀ s' : State R W, (∀ j, x = .var .aload j → s'.locals j = s.locals j) → ∀ stack,
      exec c M x ⟨stack, s'.locals⟩ = some (none, ⟨.ref r :: stack, s'.locals⟩) := by
  cases x with
  | var op slot =>
    simp only [Insn.isRefPush, decide_eq_true_eq] at h
    subst h
    refine ⟨M.toRef (s.locals slot), ?_⟩
    intro s' hs' stack
    simp [exec, execVar, State.push, hs' slot rfl]
  | field op m =>
    simp only [Insn.isRefPush, Bool.and_eq_true, decide_eq_true_eq] at h
    rw [h.1]
    exact ⟨M.global m, fun s' _ stack => rfl⟩
  | plain op =>
    simp only [Insn.isRefPush, decide_eq_true_eq] at h
    subst h
    exact ⟨M.null, fun s' _ stack => rfl⟩
  | _ => simp [Insn.isRefPush] at h

theorem exec_accessor (hcat : c.catalog.Shaped) {m : Member} (hm : m.desc = ("()I" : Text)) {r : R}
    {rest : List (Value R)} (hs : s.stack = .ref r :: rest) :
    exec c M (.ofAccessor m) s = some (none, { s with stack := .int (M.accessor m r) :: rest }) := by
  have hreceiver : Opcode.invokevirtual.hasReceiver = true := rfl
  simp only [Insn.ofAccessor, exec, reduceCtorEq, if_false, hreceiver, if_true, execReceiver, hs,
    hcat.not_axes_of_accessor hm, hm]

end Machine

/-- A call of a method that the catalog knows is made in the way that the method asks for: what works on
packed coordinates has no receiver, and what gives one for a receiver has one. -/
structure Catalog.CallFits (cat : Catalog) (op : Opcode) (m : Member) : Prop where
  unpack : (cat.unpackAxis? m).isSome = true → op = .invokestatic
  offset : cat.isOffset m = true → op = .invokestatic
  axes : ∀ e, cat.lookup m = some e → e.axes.isSome = true → op.hasReceiver = true

namespace Machine

variable {R W : Type} {c : ExpansionContext} {M : Meaning R W} {E : IndexSet}

variable {rest : List (Value R)} {s : State R W} {m : Member} {slot : Int} {axis : Axis}

theorem exec_offset (hcat : c.catalog.Shaped) {o : OffsetCall} (ho : c.catalog.offset = some o) (itf : Bool)
    {r : R} {p : Coord} (hs : s.stack = .ref r :: .packed p :: rest) :
    exec c M (.call .invokestatic o.method itf) s = some (none, { s with
      stack := .packed (.ofParts fun axis => p.get axis + M.accessor (o.axes.get axis) r) :: rest }) := by
  obtain ⟨f, t, hf, hparams, -⟩ := (hcat.offset o ho).type
  have hunpack : c.catalog.unpackAxis? o.method = none := by
    apply hcat.unpackAxis?_eq_none hf
    rintro rfl
    simp at hparams
  simp only [exec, if_true, execStatic, hunpack, ho, Option.filter, decide_true, hs]

theorem exec_pack (hcat : c.catalog.Shaped) {e : Entry} (he : c.catalog.lookup m = some e)
    (hp : e.pack = true) (itf : Bool) {x y z : Int32} (hs : s.stack = .int z :: .int y :: .int x :: rest) :
    exec c M (.call .invokestatic m itf) s = some (none, { s with stack := .packed ⟨x, y, z⟩ :: rest }) := by
  have hpack : (c.catalog.lookup m).filter Entry.pack = some e := by simp [he, Option.filter, hp]
  simp only [exec, if_true, execStatic, hcat.not_unpack_of_pack he hp, hcat.not_offset_of_pack he hp, hpack, hs]

theorem exec_axes {e : Entry} {axes : AxisMembers} (he : c.catalog.lookup m = some e)
    (ha : e.axes = some axes) {op : Opcode} (hop : op.hasReceiver = true) (itf : Bool) {r : R}
    (hs : s.stack = .ref r :: rest) :
    exec c M (.call op m itf) s = some (none, { s with
      stack := .packed (.ofParts fun axis => M.accessor (axes.get axis) r) :: rest }) := by
  have hstatic : op ≠ .invokestatic := by
    rintro rfl
    exact absurd hop (by decide)
  simp only [exec, hstatic, if_false, hop, if_true, execReceiver, hs, he, Option.bind_some, ha]

/-- What is asked of instructions that push a coordinate, for its parts to be stored one by one. -/
structure Storable (c : ExpansionContext) (E : IndexSet) (load : List Insn) : Prop where
  placed : ∀ op j, .var op j ∈ load → op ≠ .iload → op ≠ .istore → SlotMap.Placed E op j
  clear : ∀ j, .var .iload j ∈ load.tail → SlotMap.Clear E j
  calls : ∀ op m itf, .call op m itf ∈ load → c.catalog.CallFits op m

theorem Storable.of_append {load xs : List Insn} (h : Storable c E (load ++ xs)) (hne : load ≠ []) :
    Storable c E load := by
  refine ⟨?_, ?_, ?_⟩
  · intro op j hj
    exact h.placed op j (List.mem_append_left xs hj)
  · intro j hj
    refine h.clear j ?_
    rw [List.tail_append_of_ne_nil hne]
    exact List.mem_append_left xs hj
  · intro op m itf hm
    exact h.calls op m itf (List.mem_append_left xs hm)

/-- The slot of a part of a coordinate is kept while the parts before it are stored. -/
theorem WrittenBefore.narrow {j : Int} {s' : State R W} (h : WrittenBefore slot axis s s')
    (hj : j = slot ∨ j + 3 ≤ slot ∨ slot + 3 ≤ j) : s'.locals (j + axis.index) = s.locals (j + axis.index) := by
  apply h.locals
  intro k hk
  have hindex : axis.index < 3 := by cases axis <;> decide
  omega

/-- A slot outside of a triple is kept while the triple is stored. -/
theorem WrittenBefore.outside {j : Int} {s' : State R W} (h : WrittenBefore slot axis s s')
    (hj : j < slot ∨ slot + 3 ≤ j) : s'.locals j = s.locals j := by
  apply h.locals
  intro k hk
  have hindex : axis.index < 3 := by cases axis <;> decide
  omega

/-- The instructions `load` push one coordinate, and the instructions `part axis` its parts, also while the
parts before them are stored to `slot`. -/
def PushesParts (c : ExpansionContext) (M : Meaning R W) (slot : Int) (s : State R W) (load : List Insn)
    (part : Axis → List Insn) : Prop :=
  ∃ p, (∀ ls : List (InsnId × Insn), ls.map Prod.snd = load → run c M none ls s = s.push (.packed p)) ∧
    ∀ axis s', WrittenBefore slot axis s s' → ∀ k,
      run c M none (numbered k (part axis)) s' = s'.push (.int (p.get axis))

section Storing

variable {slot : Int} {s : State R W}

theorem pushesParts_operand {x : Insn} (hx : c.isOperand x = true)
    (hkept : ∀ axis s' j, WrittenBefore slot axis s s' → x = .var .lload j →
      s'.locals (j + axis.index) = s.locals (j + axis.index)) :
    PushesParts c M slot s [x] fun axis => [c.narrow x axis] := by
  refine ⟨operand c M s x, ?_, ?_⟩
  · intro ls hls
    obtain ⟨i, l, rfl, hnil⟩ := exists_line hls
    rw [List.map_eq_nil_iff.mp hnil, run_singleton, exec_operand hx]
  · intro axis s' hs' k
    rw [numbered_cons, numbered_nil, run_singleton]
    exact exec_narrow hx axis fun j hj => hkept axis s' j hs' hj

variable {itf : Bool}

/-- The parts of a coordinate that is moved. -/
theorem pushesParts_offset (hcat : c.catalog.Shaped) {j : Int} {r : Insn} {o : OffsetCall}
    (ho : c.catalog.offset = some o) (hj : c.slots.isFirst j = true) (hr : r.isRefPush = true)
    (hkept : ∀ axis s', WrittenBefore slot axis s s' → s'.locals (j + axis.index) = s.locals (j + axis.index))
    (href : ∀ axis s' i, WrittenBefore slot axis s s' → r = .var .aload i → s'.locals i = s.locals i) :
    PushesParts c M slot s [.var .lload j, r, .call .invokestatic o.method itf] fun axis =>
      [c.narrow (.var .lload j) axis, r, .ofAccessor (o.axes.get axis), .plain .iadd] := by
  obtain ⟨v, hv⟩ := @exec_refPush R W c M r hr s
  have hload : c.isOperand (.var .lload j) = true := isOperand_iff.mpr (.inl ⟨j, rfl, hj⟩)
  refine ⟨.ofParts fun axis => (s.triple M j).get axis + M.accessor (o.axes.get axis) v, ?_, ?_⟩
  · intro ls hls
    obtain ⟨i₁, l₁, rfl, h₁⟩ := exists_line hls
    obtain ⟨i₂, l₂, rfl, h₂⟩ := exists_line h₁
    obtain ⟨i₃, l₃, rfl, h₃⟩ := exists_line h₂
    rw [List.map_eq_nil_iff.mp h₃, run_cons_of (exec_operand hload s), run_cons_of (hv s (fun _ _ => rfl) _),
      run_singleton, exec_offset hcat ho itf rfl]
    rfl
  · intro axis s' hs' k
    have hnarrow : exec c M (c.narrow (.var .lload j) axis) s' = s'.push (.int ((s.triple M j).get axis)) := by
      apply exec_narrow hload
      rintro _ ⟨⟩
      exact hkept axis s' hs'
    rw [numbered_cons, numbered_cons, numbered_cons, numbered_cons, numbered_nil, run_cons_of hnarrow,
      run_cons_of (hv s' (fun i hi => href axis s' i hs' hi) _),
      run_cons_of (exec_accessor hcat ((hcat.offset o ho).axes axis) rfl), run_singleton, Coord.get_ofParts]
    rfl

/-- The parts that accessors give. -/
theorem pushesParts_accessors (hcat : c.catalog.Shaped) {j : Int} {op : Opcode} {m : Member}
    {e : Entry} {axes : AxisMembers} (he : c.catalog.lookup m = some e) (ha : e.axes = some axes)
    (hop : op.hasReceiver = true) (hkept : ∀ axis s', WrittenBefore slot axis s s' → s'.locals j = s.locals j) :
    PushesParts c M slot s [.var .aload j, .call op m itf] fun axis =>
      [.var .aload j, .ofAccessor (axes.get axis)] := by
  have hdesc := hcat.accessor_desc he ha
  have hload : ∀ s' : State R W, exec c M (.var .aload j) s' = s'.push (.ref (M.toRef (s'.locals j))) :=
    fun _ => rfl
  refine ⟨.ofParts fun axis => M.accessor (axes.get axis) (M.toRef (s.locals j)), ?_, ?_⟩
  · intro ls hls
    obtain ⟨i₁, l₁, rfl, h₁⟩ := exists_line hls
    obtain ⟨i₂, l₂, rfl, h₂⟩ := exists_line h₁
    rw [List.map_eq_nil_iff.mp h₂, run_cons_of (hload s), run_singleton, exec_axes he ha hop itf rfl]
    rfl
  · intro axis s' hs' k
    rw [numbered_cons, numbered_cons, numbered_nil, run_cons_of (hload s'), hkept axis s' hs', run_singleton,
      exec_accessor hcat (hdesc axis) rfl, Coord.get_ofParts]
    rfl

/-- The parts that are packed. -/
theorem pushesParts_pack (hcat : c.catalog.Shaped) {x y z : Insn} {m : Member} {e : Entry}
    (he : c.catalog.lookup m = some e) (hp : e.pack = true) (hx : x.isIntPush = true)
    (hy : y.isIntPush = true) (hz : z.isIntPush = true)
    (hkept : ∀ axis s' j, WrittenBefore slot axis s s' → .var .iload j ∈ [y, z] → s'.locals j = s.locals j) :
    PushesParts c M slot s [x, y, z, .call .invokestatic m itf] fun axis => match axis with
      | .x => [x]
      | .y => [y]
      | .z => [z] := by
  obtain ⟨vx, hvx⟩ := @exec_intPush R W c M x hx s
  obtain ⟨vy, hvy⟩ := @exec_intPush R W c M y hy s
  obtain ⟨vz, hvz⟩ := @exec_intPush R W c M z hz s
  refine ⟨⟨vx, vy, vz⟩, ?_, ?_⟩
  · intro ls hls
    obtain ⟨i₁, l₁, rfl, h₁⟩ := exists_line hls
    obtain ⟨i₂, l₂, rfl, h₂⟩ := exists_line h₁
    obtain ⟨i₃, l₃, rfl, h₃⟩ := exists_line h₂
    obtain ⟨i₄, l₄, rfl, h₄⟩ := exists_line h₃
    rw [List.map_eq_nil_iff.mp h₄, run_cons_of (hvx s (fun _ _ => rfl) s.stack),
      run_cons_of (hvy s (fun _ _ => rfl) _), run_cons_of (hvz s (fun _ _ => rfl) _), run_singleton,
      exec_pack hcat he hp itf rfl]
    rfl
  · intro axis s' hs' k
    cases axis with
    | x =>
      rw [numbered_cons, numbered_nil, run_singleton]
      -- nothing has been written when the first part is read
      exact hvx s' (fun j _ => hs'.locals j fun k hk => absurd hk (Nat.not_lt_zero k)) s'.stack
    | y =>
      rw [numbered_cons, numbered_nil, run_singleton]
      exact hvy s' (fun j hj => hkept .y s' j hs' (by simp [hj])) s'.stack
    | z =>
      rw [numbered_cons, numbered_nil, run_singleton]
      exact hvz s' (fun j hj => hkept .z s' j hs' (by simp [hj])) s'.stack

/-- Whatever a pattern stores to an expanded slot can be stored part by part. -/
theorem Storable.pushesParts {load : List Insn} {part : Axis → List Insn} (h : Storable c E load)
    (hp : Parts c load part) (hcat : c.catalog.Shaped) (hc : c.slots = .ofSlots E)
    (hslot : SlotMap.Placed E .lstore slot) (hfirst : c.slots.isFirst slot = true) :
    PushesParts c M slot s load part := by
  rw [hc] at hfirst
  -- a packed load is from the three slots of the store, or from three others
  have hload : ∀ axis s' j, .var .lload j ∈ load → c.slots.isFirst j = true → WrittenBefore slot axis s s' →
      s'.locals (j + axis.index) = s.locals (j + axis.index) := by
    intro axis s' j hmem hj hs'
    rw [hc] at hj
    exact hs'.narrow ((h.placed .lload j hmem (by decide) (by decide)).same_or_apart hslot hj hfirst)
  have haload : ∀ axis s' j, .var .aload j ∈ load → WrittenBefore slot axis s s' →
      s'.locals j = s.locals j := by
    intro axis s' j hmem hs'
    exact hs'.outside ((h.placed .aload j hmem (by decide) (by decide)).clear (by decide) (by decide) slot hfirst)
  cases hp with
  | @offset x r op itf o ho hx hr =>
    obtain ⟨j, rfl, hj⟩ := isPackedLoad_iff.mp hx
    have hop : op = .invokestatic := (h.calls op o.method itf (by simp)).offset (by simp [Catalog.isOffset, ho])
    rw [hop]
    refine pushesParts_offset hcat ho hj hr (fun axis s' hs' => hload axis s' j (by simp) hj hs') ?_
    rintro axis s' i hs' rfl
    exact haload axis s' i (by simp) hs'
  | @sentinel x hx =>
    apply pushesParts_operand (by simp [ExpansionContext.isOperand, hx])
    rintro axis s' j - rfl
    simp [ExpansionContext.isSentinel] at hx
  | @accessors j op m itf e axes he ha =>
    have hop : op.hasReceiver = true := (h.calls op m itf (by simp)).axes e he (by simp [ha])
    exact pushesParts_accessors hcat he ha hop fun axis s' hs' => haload axis s' j (by simp) hs'
  | @pack x y z m itf e he hpack hx hy hz =>
    apply pushesParts_pack hcat he hpack hx hy hz
    intro axis s' j hs' hj
    refine hs'.outside (h.clear j ?_ slot hfirst)
    simp only [List.tail_cons, List.mem_cons, List.not_mem_nil, or_false] at hj ⊢
    tauto
  | @copy x hx =>
    obtain ⟨j, rfl, hj⟩ := isPackedLoad_iff.mp hx
    apply pushesParts_operand (isOperand_iff.mpr (.inl ⟨j, rfl, hj⟩))
    rintro axis s' _ hs' ⟨⟩
    exact hload axis s' j (by simp) hj hs'

/-- A window that stores a coordinate may store its parts one by one. -/
theorem run_store {w : List (InsnId × Insn)} {load : List Insn} {part : Axis → List Insn} {n : Nat}
    (hw : w.map Prod.snd = load ++ [.var .lstore slot]) (h : PushesParts c M slot s load part)
    (hfirst : c.slots.isFirst slot = true) :
    ∃ r, run c M none w s = some r ∧ run c M none
      (numbered n (Axis.all.flatMap fun axis => part axis ++ [.var .istore (slot + axis.index)])) s = some r := by
  obtain ⟨p, hload, hpart⟩ := h
  obtain ⟨ls, ks, rfl, hls, hks⟩ := List.map_eq_append_iff.mp hw
  obtain ⟨id, l, rfl, hnil⟩ := exists_line hks
  refine ⟨(none, s.setTriple M slot p), ?_, run_storeParts n hpart⟩
  rw [List.map_eq_nil_iff.mp hnil, run_append, hload ls hls]
  simp only [State.push, Option.bind_some]
  rw [run_singleton]
  simp only [exec, execVar, hfirst, if_true]

end Storing

/-! ## Windows -/

/-- Taking an axis out is loading its slot. -/
theorem run_unpack {w : List (InsnId × Insn)} {itf : Bool} {n : Nat}
    (hw : w.map Prod.snd = [.var .lload slot, .call .invokestatic m itf]) (hfirst : c.slots.isFirst slot = true)
    (ha : c.catalog.unpackAxis? m = some axis) (s : State R W) :
    ∃ r, run c M none w s = some r ∧
      run c M none (numbered n [.var .iload (slot + axis.index)]) s = some r := by
  have hload : c.isOperand (.var .lload slot) = true := isOperand_iff.mpr (.inl ⟨slot, rfl, hfirst⟩)
  obtain ⟨i, l, rfl, hl⟩ := exists_line hw
  obtain ⟨j, k, rfl, hk⟩ := exists_line hl
  refine ⟨(none, { s with stack := .int ((s.triple M slot).get axis) :: s.stack }), ?_, ?_⟩
  · rw [List.map_eq_nil_iff.mp hk, run_cons_of (exec_operand hload s), run_singleton]
    simp only [exec, if_true, execStatic, ha]
    rfl
  · rw [numbered_cons, numbered_nil, run_singleton, State.triple, Coord.get_ofParts]
    rfl

/-- What is asked of a window, where the ids from `n` on are free. -/
structure Fit (c : ExpansionContext) (E : IndexSet) (n : Nat) (w : List Insn) : Prop extends Storable c E w where
  targets : ∀ (op : Opcode) (t : InsnId), .jump op t ∈ w → t < n

/-- Running what a pattern puts in is running what it takes out, from any state. -/
theorem Fit.run_eq {w out : List (InsnId × Insn)} {n : Nat} (h : Fit c E n (w.map Prod.snd))
    (hr : Rewrites c n w out) (hcat : c.catalog.Shaped) (hc : c.slots = .ofSlots E) (s : State R W) :
    ∃ r, run c M none w s = some r ∧ run c M none out s = some r := by
  cases hr with
  | @unpack slot op m itf axis hw hs ha =>
    have hop : op = .invokestatic := (h.calls op m itf (by simp [hw])).unpack (by simp [ha])
    rw [hop] at hw
    exact run_unpack hw hs ha s
  | @unequal a b t hw ha hb _ => exact run_unequal hw ha hb (h.targets .ifne t (by simp [hw])) s
  | @equal a b t hw ha hb _ => exact run_equal hw ha hb (h.targets .ifeq t (by simp [hw])) s
  | @store load part slot hw hp hs =>
    have hload : load ≠ [] := by cases hp <;> simp
    have hslot : SlotMap.Placed E .lstore slot := h.placed .lstore slot (by simp [hw]) (by decide) (by decide)
    have hstorable : Storable c E (load ++ [.var .lstore slot]) := hw ▸ h.toStorable
    exact run_store hw ((hstorable.of_append hload).pushesParts hp hcat hc hslot hs) hs

end Machine

end CoordSplit
