import CoordSplit.Proofs.LinkedCode
import CoordSplit.Proofs.TransformStages

/-!
# What replacing a pattern does

`Pattern.Rewrites` lists what a pattern may replace by what. Whenever a pattern is found, the listing of the
code changes from `pre ++ window ++ post` to `pre ++ out ++ post` for some such `window` and `out`
(`Pattern.applyNext_rewrites`), and nothing else changes.

`PatternRun.rewrites` is the trace of a run: the codes before and after each replacement.
-/

set_option autoImplicit false

namespace CoordSplit

open Code

/-! ## What may be taken out -/

namespace Insn

/-- Whether an instruction is of a form that rewriting neither takes out, nor changes, nor puts in. -/
def isFixture : Insn → Bool
  | .switch _ _ _ _ | .type _ _ | .multiArray _ _ => true
  | .ldc (.int _) | .ldc (.long _) => false
  | .ldc _ => true
  | _ => false

/-- An instruction that rewriting may take out: neither a label, nor of a form that it does not touch. -/
def Loose (x : Insn) : Prop := x.isLabel = false ∧ x.isFixture = false

/-- What has no operand can be taken out. -/
@[simp] theorem loose_plain (op : Opcode) : Loose (.plain op) := ⟨rfl, rfl⟩

/-- So can loads and stores. -/
@[simp] theorem loose_var (op : Opcode) (slot : Int) : Loose (.var op slot) := ⟨rfl, rfl⟩

/-- So can branches. -/
@[simp] theorem loose_jump (op : Opcode) (target : InsnId) : Loose (.jump op target) := ⟨rfl, rfl⟩

/-- So can calls. -/
@[simp] theorem loose_call (op : Opcode) (m : Member) (itf : Bool) : Loose (.call op m itf) := ⟨rfl, rfl⟩

/-- What pushes a value and does nothing else may be taken out. -/
theorem Loose.of_push {x : Insn} (h : x.isIntPush = true ∨ x.isRefPush = true) : x.Loose := by
  cases x with
  | ldc v => cases v <;> first | exact ⟨rfl, rfl⟩ | simp [isIntPush, isRefPush] at h
  | _ => first | exact ⟨rfl, rfl⟩ | simp [isIntPush, isRefPush] at h

end Insn

namespace ExpansionContext

variable {c : ExpansionContext} {x : Insn}

/-- Operands may be taken out. -/
theorem loose_of_isOperand (h : c.isOperand x = true) : x.Loose := by
  rw [isOperand, Bool.or_eq_true] at h
  cases x with
  | ldc v => cases v <;> first | exact ⟨rfl, rfl⟩ | simp [isPackedLoad, isSentinel] at h
  | _ => first | exact ⟨rfl, rfl⟩ | simp [isPackedLoad, isSentinel] at h

/-- A load of an expanded slot is an operand. -/
theorem isOperand_of_isPackedLoad (h : c.isPackedLoad x = true) : c.isOperand x = true := by
  rw [isOperand, h, Bool.true_or]

/-- The sentinel is an operand. -/
theorem isOperand_of_isSentinel (h : c.isSentinel x = true) : c.isOperand x = true := by
  rw [isOperand, h, Bool.or_true]

/-- The part of an operand is pushed without a branch. -/
theorem targets_narrow (c : ExpansionContext) (x : Insn) (axis : Axis) : (c.narrow x axis).targets = [] := by
  cases x <;> rfl

end ExpansionContext

namespace Pattern

/-- The instructions `load` push a packed coordinate, and the instructions `part axis` its parts. -/
inductive Parts (c : ExpansionContext) : List Insn → (Axis → List Insn) → Prop
  | offset {x r : Insn} {op : Opcode} {itf : Bool} {o : OffsetCall} (ho : c.catalog.offset = some o)
      (hx : c.isPackedLoad x = true) (hr : r.isRefPush = true) :
      Parts c [x, r, .call op o.method itf] fun axis =>
        [c.narrow x axis, r, .ofAccessor (o.axes.get axis), .plain .iadd]
  | sentinel {x : Insn} (hx : c.isSentinel x = true) : Parts c [x] fun axis => [c.narrow x axis]
  | accessors {slot : Int} {op : Opcode} {m : Member} {itf : Bool} {e : Entry} {axes : AxisMembers}
      (he : c.catalog.lookup m = some e) (ha : e.axes = some axes) :
      Parts c [.var .aload slot, .call op m itf] fun axis => [.var .aload slot, .ofAccessor (axes.get axis)]
  | pack {x y z : Insn} {m : Member} {itf : Bool} {e : Entry} (he : c.catalog.lookup m = some e)
      (hp : e.pack = true) (hx : x.isIntPush = true) (hy : y.isIntPush = true) (hz : z.isIntPush = true) :
      Parts c [x, y, z, .call .invokestatic m itf] fun axis => match axis with
        | .x => [x]
        | .y => [y]
        | .z => [z]
  | copy {x : Insn} (hx : c.isPackedLoad x = true) : Parts c [x] fun axis => [c.narrow x axis]

/-- The instructions that push one part, where `load` pushed the whole. -/
inductive PartInsn (c : ExpansionContext) (load : List Insn) (axis : Axis) : Insn → Prop
  | narrow {x : Insn} (hx : c.isOperand x = true) : PartInsn c load axis (c.narrow x axis)
  | push {x : Insn} (hmem : x ∈ load) (hx : x.isIntPush = true ∨ x.isRefPush = true) : PartInsn c load axis x
  | offset {o : OffsetCall} (ho : c.catalog.offset = some o) : PartInsn c load axis (.ofAccessor (o.axes.get axis))
  | accessor {m : Member} {e : Entry} {axes : AxisMembers} (he : c.catalog.lookup m = some e)
      (ha : e.axes = some axes) : PartInsn c load axis (.ofAccessor (axes.get axis))
  | add : PartInsn c load axis (.plain .iadd)

section

open ExpansionContext

variable {c : ExpansionContext} {load : List Insn} {part : Axis → List Insn}

/-- No pattern takes out a label or a fixture for a coordinate. -/
theorem Parts.loose (h : Parts c load part) : ∀ x ∈ load, x.Loose := by
  cases h with
  | offset ho hx hr => simp [loose_of_isOperand (isOperand_of_isPackedLoad hx), Insn.Loose.of_push (.inr hr)]
  | sentinel hx => simp [loose_of_isOperand (isOperand_of_isSentinel hx)]
  | accessors he ha => simp
  | pack he hp hx hy hz => simp [Insn.Loose.of_push (.inl hx), Insn.Loose.of_push (.inl hy), Insn.Loose.of_push (.inl hz)]
  | copy hx => simp [loose_of_isOperand (isOperand_of_isPackedLoad hx)]

/-- What pushes a part is made of such instructions. -/
theorem Parts.partInsn (h : Parts c load part) (axis : Axis) : ∀ x ∈ part axis, PartInsn c load axis x := by
  intro y hmem
  cases h with
  | offset ho hx hr =>
    simp only [List.mem_cons, List.not_mem_nil, or_false] at hmem
    rcases hmem with rfl | rfl | rfl | rfl
    · exact .narrow (isOperand_of_isPackedLoad hx)
    · exact .push (by simp) (.inr hr)
    · exact .offset ho
    · exact .add
  | sentinel hx => exact List.mem_singleton.mp hmem ▸ .narrow (isOperand_of_isSentinel hx)
  | accessors he ha =>
    simp only [List.mem_cons, List.not_mem_nil, or_false] at hmem
    rcases hmem with rfl | rfl
    · exact .push (by simp) (.inr rfl)
    · exact .accessor he ha
  | pack he hp hx hy hz =>
    cases axis <;> obtain rfl := List.mem_singleton.mp hmem
    · exact .push (by simp) (.inl hx)
    · exact .push (by simp) (.inl hy)
    · exact .push (by simp) (.inl hz)
  | copy hx => exact List.mem_singleton.mp hmem ▸ .narrow (isOperand_of_isPackedLoad hx)

end

/-- The plans for the starts of runs. -/
inductive Recognised (c : ExpansionContext) : List Insn → Plan → Prop
  | unpack {slot : Int} {op : Opcode} {m : Member} {itf : Bool} {axis : Axis} {rest : List Insn}
      (hs : c.slots.isFirst slot = true) (ha : c.catalog.unpackAxis? m = some axis) :
      Recognised c (.var .lload slot :: .call op m itf :: rest) (.replace 2 [.var .iload (slot + axis.index)])
  | compare {a b x : Insn} {rest : List Insn} (ha : c.isOperand a = true) (hb : c.isOperand b = true)
      (hload : c.isPackedLoad a = true ∨ c.isPackedLoad b = true) :
      Recognised c (a :: b :: .plain .lcmp :: x :: rest) (comparePlan c a b x)
  | parts {load rest : List Insn} {strict : Bool} {part : Axis → List Insn} (h : Parts c load part) :
      Recognised c (load ++ rest) (.store load.length strict part)

/-- A plan is made only for a window of its pattern. -/
theorem recognise_recognised {c : ExpansionContext} {p : Pattern} {xs : List Insn} {plan : Plan}
    (h : p.recognise c xs = some plan) : Recognised c xs plan := by
  revert h
  fun_cases recognise c p xs with
  | case1 slot op m itf tail hs =>
    intro h
    obtain ⟨axis, ha, rfl⟩ := Option.map_eq_some_iff.mp h
    exact .unpack hs ha
  | case3 x r op m itf tail o ho h =>
    simp only [Bool.and_eq_true, decide_eq_true_eq] at h
    obtain ⟨⟨hx, hr⟩, rfl⟩ := h
    intro h
    rw [← Option.some.inj h]
    exact @Recognised.parts c [x, r, .call op o.method itf] tail true _ (.offset ho hx hr)
  | case6 a b x tail h =>
    simp only [Bool.and_eq_true, Bool.or_eq_true] at h
    obtain ⟨⟨ha, hb⟩, hload⟩ := h
    intro h
    rw [← Option.some.inj h]
    exact .compare ha hb hload
  | case8 x tail hx =>
    intro h
    rw [← Option.some.inj h]
    exact @Recognised.parts c [x] tail false _ (.sentinel hx)
  | case10 slot op m itf tail =>
    intro h
    obtain ⟨e, he, h⟩ := Option.bind_eq_some_iff.mp h
    obtain ⟨axes, ha, rfl⟩ := Option.map_eq_some_iff.mp h
    exact @Recognised.parts c [.var .aload slot, .call op m itf] tail false _ (.accessors he ha)
  | case11 x y z m itf tail =>
    intro h
    obtain ⟨e, he, h⟩ := Option.bind_eq_some_iff.mp h
    split at h
    · next hp =>
      simp only [Bool.and_eq_true] at hp
      obtain ⟨⟨⟨hp, hx⟩, hy⟩, hz⟩ := hp
      rw [← Option.some.inj h]
      exact @Recognised.parts c [x, y, z, .call .invokestatic m itf] tail false _ (.pack he hp hx hy hz)
    · simp at h
  | case12 x tail hx =>
    intro h
    rw [← Option.some.inj h]
    exact @Recognised.parts c [x] tail false _ (.copy hx)
  | _ => simp

/-- What is replaced by what, where `n` is the first id that is free. -/
inductive Rewrites (c : ExpansionContext) (n : Nat) : List (InsnId × Insn) → List (InsnId × Insn) → Prop
  | unpack {w : List (InsnId × Insn)} {slot : Int} {op : Opcode} {m : Member} {itf : Bool} {axis : Axis}
      (hw : w.map Prod.snd = [.var .lload slot, .call op m itf]) (hs : c.slots.isFirst slot = true)
      (ha : c.catalog.unpackAxis? m = some axis) :
      Rewrites c n w (numbered n [.var .iload (slot + axis.index)])
  | unequal {w : List (InsnId × Insn)} {a b : Insn} {target : InsnId}
      (hw : w.map Prod.snd = [a, b, .plain .lcmp, .jump .ifne target]) (ha : c.isOperand a = true)
      (hb : c.isOperand b = true) (hload : c.isPackedLoad a = true ∨ c.isPackedLoad b = true) :
      Rewrites c n w (numbered n (Axis.all.flatMap fun axis => compareParts c a b axis .ifIcmpne target))
  | equal {w : List (InsnId × Insn)} {a b : Insn} {target : InsnId}
      (hw : w.map Prod.snd = [a, b, .plain .lcmp, .jump .ifeq target]) (ha : c.isOperand a = true)
      (hb : c.isOperand b = true) (hload : c.isPackedLoad a = true ∨ c.isPackedLoad b = true) :
      Rewrites c n w (numbered (n + 1) (compareParts c a b .x .ifIcmpne n ++
        compareParts c a b .y .ifIcmpne n ++ compareParts c a b .z .ifIcmpeq target) ++ [((n : Int), .label)])
  | store {w : List (InsnId × Insn)} {load : List Insn} {part : Axis → List Insn} {slot : Int}
      (hw : w.map Prod.snd = load ++ [.var .lstore slot]) (hp : Parts c load part)
      (hs : c.slots.isFirst slot = true) :
      Rewrites c n w (numbered n (Axis.all.flatMap fun axis => part axis ++ [.var .istore (slot + axis.index)]))

/-- No pattern takes out a label or a fixture. -/
theorem Rewrites.loose {c : ExpansionContext} {n : Nat} {w out : List (InsnId × Insn)} (h : Rewrites c n w out) :
    ∀ x ∈ w.map Prod.snd, x.Loose := by
  cases h with
  | unpack hw hs ha => simp [hw]
  | unequal hw ha hb _ => simp [hw, c.loose_of_isOperand ha, c.loose_of_isOperand hb]
  | equal hw ha hb _ => simp [hw, c.loose_of_isOperand ha, c.loose_of_isOperand hb]
  | store hw hp hs =>
    intro x hx
    rw [hw, List.mem_append, List.mem_singleton] at hx
    rcases hx with hx | rfl
    · exact hp.loose x hx
    · exact Insn.loose_var _ _

/-! ## Carrying out -/

variable {c : ExpansionContext} {code code' : Code} {pre w post : List (InsnId × Insn)}

/-- The first id of a window. -/
theorem headD_fst (hne : w ≠ []) : ((w ++ post).map Prod.fst).headD .none = headId w .none := by
  cases w with
  | nil => exact absurd rfl hne
  | cons p w => rfl

variable {n : Nat} {run : List (InsnId × Insn)}

/-- The ids of a window. -/
theorem take_fst (hn : w.length = n) : ((w ++ post).map Prod.fst).take n = w.map Prod.fst := by
  rw [List.map_append, List.take_append_of_le_length (by simp [hn]), List.take_of_length_le (by simp [hn])]

/-- A window is replaced by new lines. -/
theorem carryOut_replace {out : List Insn} (hn : w.length = n) (h : code.Holds (pre ++ w ++ post))
    (hne : w ≠ []) (hlabel : ∀ p ∈ w, p.2.isLabel = false) :
    ∃ code', carryOut c code (w ++ post) (.replace n out) = .ok (some code') ∧
      code'.Holds (pre ++ numbered code.nodes.size out ++ post) := by
  obtain ⟨d, hd, hholds, -⟩ := h.replace hne hlabel out
  refine ⟨d, ?_, hholds⟩
  simp only [carryOut, headD_fst hne, take_fst hn, hd, Except.map]

/-- A window is replaced by lines with a new label behind them. -/
theorem carryOut_branch {out : InsnId → List Insn} (hn : w.length = n)
    (h : code.Holds (pre ++ w ++ post)) (hne : w ≠ []) (hlabel : ∀ p ∈ w, p.2.isLabel = false) :
    ∃ code', carryOut c code (w ++ post) (.branch n out) = .ok (some code') ∧
      code'.Holds (pre ++ (numbered (code.nodes.size + 1) (out code.nodes.size) ++
        [((code.nodes.size : Int), .label)]) ++ post) := by
  obtain ⟨w', p, hw⟩ := (List.eq_nil_or_concat w).resolve_left hne
  rw [List.concat_eq_append] at hw
  subst hw
  have hlast : ((w' ++ [p] ++ post).map Prod.fst)[n - 1]?.getD .none = p.1 := by
    rw [← hn]
    simp
  -- the label goes behind the window first, and is then part of what follows it
  obtain ⟨d, hd, hlabelled, hsize⟩ := @Holds.insertAfter code (pre ++ w') post p (by simpa using h) [.label]
  have hholds : d.Holds (pre ++ (w' ++ [p]) ++ (((code.nodes.size : Int), .label) :: post)) := by
    simpa [numbered_cons] using hlabelled
  obtain ⟨d', hd', hholds', -⟩ := hholds.replace hne hlabel (out code.nodes.size)
  refine ⟨d', ?_, by simpa [hsize] using hholds'⟩
  simp only [carryOut, hlast, hd, numbered_cons, numbered_nil, List.map_cons, List.map_nil, Outcome.ofFault,
    bind, Except.bind, List.headD_cons, headD_fst hne, take_fst hn, hd', pure, Except.pure]

/-- The id at a place of a code, or the one that refers to nothing. -/
theorem getD_id_ge (h : code.Holds (pre ++ run)) (n : Nat) : -1 ≤ ((run.map Prod.fst)[n]?).getD .none := by
  cases hid : (run.map Prod.fst)[n]? with
  | none => exact le_rfl
  | some id =>
    have hmem : id ∈ (pre ++ run).map Prod.fst := by
      rw [List.map_append]
      exact List.mem_append_right _ (List.mem_of_getElem? hid)
    exact le_trans (by decide) (h.id_lt hmem).1

/-- A plan to store the parts is carried out if a store to an expanded slot follows. If not, the plan is
dropped, or refused if it is strict. -/
theorem carryOut_store {part : Axis → List Insn} (strict : Bool) (hn : w.length = n)
    (h : code.Holds (pre ++ w ++ post)) (hlabel : ∀ p ∈ w, p.2.isLabel = false) :
    (∃ id slot rest code', post = (id, .var .lstore slot) :: rest ∧ c.slots.isFirst slot = true ∧
      carryOut c code (w ++ post) (.store n strict part) = .ok (some code') ∧
      code'.Holds (pre ++ numbered code.nodes.size (Axis.all.flatMap fun axis =>
        part axis ++ [.var .istore (slot + axis.index)]) ++ rest)) ∨
    carryOut c code (w ++ post) (.store n strict part) = .ok none ∨
    ∃ e, carryOut c code (w ++ post) (.store n strict part) = .fail e ∧ e.diagnostic.kind.Contained := by
  have hrefused : ∀ rest : List Insn, ∃ e, carryOut.misused (w ++ post) n rest = .fail e ∧
      e.diagnostic.kind.Contained := by
    intro rest
    have hge := @getD_id_ge code pre (w ++ post) (by simpa using h) (n - 1)
    rw [List.getElem?_map] at hge
    rw [carryOut.misused]
    split
    · exact ⟨_, rfl, hge⟩
    · exact ⟨_, rfl, hge⟩
  have hdrop : (w ++ post).drop n = post := by rw [← hn, List.drop_left]
  simp only [carryOut, hdrop]
  split
  · next slot rest hpost =>
    obtain ⟨p, rest', rfl, hp, -⟩ := List.map_eq_cons_iff.mp hpost
    obtain ⟨id, x⟩ := p
    simp only at hp
    subst hp
    split
    · next hs =>
      have hne : w ++ [(id, .var .lstore slot)] ≠ [] := by simp
      have hsplit : code.Holds (pre ++ (w ++ [(id, .var .lstore slot)]) ++ rest') := by simpa using h
      have hlabels : ∀ p ∈ w ++ [((id, .var .lstore slot) : InsnId × Insn)], p.2.isLabel = false := by
        intro p hp
        rcases List.mem_append.mp hp with hp | hp
        · exact hlabel p hp
        · rw [List.mem_singleton.mp hp]
          rfl
      have hlen : (w ++ [((id, .var .lstore slot) : InsnId × Insn)]).length = n + 1 := by simp [hn]
      obtain ⟨d, hd, hholds, -⟩ := hsplit.replace hne hlabels (Axis.all.flatMap fun axis =>
        part axis ++ [.var .istore (slot + axis.index)])
      refine .inl ⟨id, slot, rest', d, rfl, hs, ?_, hholds⟩
      rw [show w ++ (id, .var .lstore slot) :: rest' = w ++ [(id, .var .lstore slot)] ++ rest' by simp,
        headD_fst hne, take_fst hlen, hd]
      rfl
    · split
      · exact .inr (.inr (hrefused _))
      · exact .inr (.inl rfl)
  · split
    · exact .inr (.inr (hrefused _))
    · exact .inr (.inl rfl)

/-- Lines whose instructions start with `xs` start with a window of them. -/
theorem exists_window (xs ys : List Insn) (h : run.map Prod.snd = xs ++ ys)
    (hne : xs ≠ []) (hxs : ∀ x ∈ xs, x.isLabel = false) :
    ∃ w post, run = w ++ post ∧ w.map Prod.snd = xs ∧ w.length = xs.length ∧ w ≠ [] ∧
      ∀ p ∈ w, p.2.isLabel = false := by
  obtain ⟨w, post, rfl, hw, -⟩ := List.map_eq_append_iff.mp h
  refine ⟨w, post, rfl, hw, ?_, ?_, ?_⟩
  · rw [← hw, List.length_map]
  · rintro rfl
    exact hne hw.symm
  · intro p hp
    apply hxs
    rw [← hw]
    exact List.mem_map_of_mem hp

/-- What carrying out a plan for the start of a run can come to: a window is replaced, the plan is dropped,
or the method is refused. -/
theorem carryOut_cases {plan : Plan} (h : code.Holds (pre ++ run)) (hp : Recognised c (run.map Prod.snd) plan) :
    (∃ w out post code', carryOut c code run plan = .ok (some code') ∧ run = w ++ post ∧
      Rewrites c code.nodes.size w out ∧ code'.Holds (pre ++ out ++ post)) ∨
    carryOut c code run plan = .ok none ∨
    ∃ e, carryOut c code run plan = .fail e ∧ e.diagnostic.kind.Contained := by
  generalize hxs : run.map Prod.snd = xs at hp
  cases hp with
  | @unpack slot op m itf axis rest hs ha =>
    obtain ⟨w, post, rfl, hw, hlen, hne, hlabel⟩ :=
      exists_window [.var .lload slot, .call op m itf] rest hxs (by simp) (by simp [Insn.isLabel])
    rw [← List.append_assoc] at h
    obtain ⟨code', hc, hholds⟩ := carryOut_replace hlen h hne hlabel
    exact .inl ⟨w, _, post, code', hc, rfl, .unpack hw hs ha, hholds⟩
  | @compare a b x rest ha hb hload =>
    have hab : a.isLabel = false ∧ b.isLabel = false := ⟨(c.loose_of_isOperand ha).1, (c.loose_of_isOperand hb).1⟩
    have hlcmp : (Insn.plain .lcmp).isLabel = false := rfl
    rw [comparePlan.eq_def]
    split
    · next target =>
      have htest : (Insn.jump .ifne target).isLabel = false := rfl
      obtain ⟨w, post, rfl, hw, hlen, hne, hlabel⟩ :=
        exists_window [a, b, .plain .lcmp, .jump .ifne target] rest hxs (by simp) (by simp [hab, hlcmp, htest])
      rw [← List.append_assoc] at h
      obtain ⟨code', hc, hholds⟩ := carryOut_replace hlen h hne hlabel
      exact .inl ⟨w, _, post, code', hc, rfl, .unequal hw ha hb hload, hholds⟩
    · next target =>
      have htest : (Insn.jump .ifeq target).isLabel = false := rfl
      obtain ⟨w, post, rfl, hw, hlen, hne, hlabel⟩ :=
        exists_window [a, b, .plain .lcmp, .jump .ifeq target] rest hxs (by simp) (by simp [hab, hlcmp, htest])
      rw [← List.append_assoc] at h
      obtain ⟨code', hc, hholds⟩ := carryOut_branch hlen h hne hlabel
      exact .inl ⟨w, _, post, code', hc, rfl, .equal hw ha hb hload, hholds⟩
    · exact .inr (.inr ⟨_, rfl, getD_id_ge h _⟩)
  | @parts load rest strict part hparts =>
    have hload : load ≠ [] := by cases hparts <;> simp
    obtain ⟨w, post, rfl, hw, hlen, -, hlabel⟩ := exists_window load rest hxs hload fun x hx => (hparts.loose x hx).1
    rw [← List.append_assoc] at h
    rcases @carryOut_store c code pre w post _ part strict hlen h hlabel with hstored | hleft
    · obtain ⟨id, slot, rest', code', rfl, hs, hc, hholds⟩ := hstored
      refine .inl ⟨w ++ [(id, .var .lstore slot)], _, rest', code', hc, by simp, .store ?_ hparts hs, hholds⟩
      simp [hw]
    · exact .inr hleft

/-- What the patterns of a list can do at the start of a run. -/
theorem applyFirst_cases (h : code.Holds (pre ++ run)) (ps : List Pattern) :
    (∃ p w out post code', applyFirst c code run ps = .ok (some (p, code')) ∧ run = w ++ post ∧
      Rewrites c code.nodes.size w out ∧ code'.Holds (pre ++ out ++ post)) ∨
    applyFirst c code run ps = .ok none ∨
    ∃ p e, applyFirst c code run ps = .error (p, .error e) ∧ e.diagnostic.kind.Contained := by
  induction ps with
  | nil => exact .inr (.inl rfl)
  | cons q ps ih =>
    rw [applyFirst]
    cases hplan : q.recognise c (run.map Prod.snd) with
    | none => exact ih
    | some plan =>
      rcases carryOut_cases h (recognise_recognised hplan) with hdone | hdropped | hrefused
      · obtain ⟨w, out, post, code', hc, hrun, hr, hholds⟩ := hdone
        exact .inl ⟨q, w, out, post, code', by simp only [hc], hrun, hr, hholds⟩
      · simp only [hdropped]
        exact ih
      · obtain ⟨e, he, hcontained⟩ := hrefused
        exact .inr (.inr ⟨q, e, by simp only [he, Outcome.fail], hcontained⟩)

/-- What looking for the next place from the `i`-th one on can come to. -/
theorem applyNext_cases (h : code.Holds (pre ++ run)) (i : Nat) :
    (∃ j p skipped w out post code', applyNext c code i run = .ok (some (j, p, code')) ∧
      run = skipped ++ w ++ post ∧ j = i + skipped.length ∧ Rewrites c code.nodes.size w out ∧
      code'.Holds (pre ++ skipped ++ out ++ post)) ∨
    applyNext c code i run = .ok none ∨
    ∃ p e, applyNext c code i run = .error (p, .error e) ∧ e.diagnostic.kind.Contained := by
  induction run generalizing i pre with
  | nil => exact .inr (.inl rfl)
  | cons x run ih =>
    rw [applyNext]
    rcases applyFirst_cases h all with hdone | hnone | hrefused
    · obtain ⟨p, w, out, post, code', hc, hrun, hr, hholds⟩ := hdone
      exact .inl ⟨i, p, [], w, out, post, code', by simp only [hc], by simpa using hrun, rfl, hr,
        by simpa using hholds⟩
    · simp only [hnone]
      rcases @ih (pre ++ [x]) (by simpa using h) (i + 1) with hdone | hrest
      · obtain ⟨j, p, skipped, w, out, post, code', hc, hrun, hj, hr, hholds⟩ := hdone
        refine .inl ⟨j, p, x :: skipped, w, out, post, code', hc, by simp [hrun], ?_, hr, by simpa using hholds⟩
        rw [hj, List.length_cons]
        omega
      · exact .inr hrest
    · obtain ⟨p, e, he, hcontained⟩ := hrefused
      exact .inr (.inr ⟨p, e, by simp only [he], hcontained⟩)

/-- What the next replacement from a place on replaces by what. -/
theorem applyNext_rewrites {i j : Nat} {p : Pattern} (h : code.WellLinked)
    (hc : applyNext c code i (code.listing.drop i) = .ok (some (j, p, code'))) :
    ∃ pre w out post, code.listing = pre ++ w ++ post ∧ i ≤ pre.length ∧ pre.length = j ∧
      Rewrites c code.nodes.size w out ∧ code'.Holds (pre ++ out ++ post) := by
  have hholds : code.Holds (code.listing.take i ++ code.listing.drop i) := by
    rw [List.take_append_drop]
    exact h
  rcases @applyNext_cases c code _ _ hholds i with hdone | hnone | ⟨q, e, he, -⟩
  · obtain ⟨j', p', skipped, w, out, post, d, hd, hrun, hj, hr, hnew⟩ := hdone
    rw [hd] at hc
    simp only [Except.ok.injEq, Option.some.injEq, Prod.mk.injEq] at hc
    obtain ⟨rfl, rfl, rfl⟩ := hc
    have hlength : (code.listing.take i).length = i := by
      rw [List.length_take, min_eq_left]
      by_contra hlt
      rw [List.drop_of_length_le (by omega)] at hd
      simp [applyNext] at hd
    refine ⟨code.listing.take i ++ skipped, w, out, post, ?_, ?_, ?_, hr, hnew⟩
    · rw [List.append_assoc, List.append_assoc, ← List.append_assoc skipped, ← hrun, List.take_append_drop]
    · rw [List.length_append, hlength]
      omega
    · rw [List.length_append, hlength, hj]
  · simp [hnone] at hc
  · simp [he] at hc

end Pattern

/-! ## The trace of a run -/

/-- One replacement: where it took place, by which pattern, and the codes before and after. -/
structure Rewrite where
  place : Nat
  pattern : Pattern
  before : Code
  after : Code

namespace Rewrite

/-- The lines that were taken out. -/
def removed (r : Rewrite) : List (InsnId × Insn) := r.before.listing.filter fun p => p.1 ∉ r.after.ids

/-- The lines that were put in. -/
def added (r : Rewrite) : List (InsnId × Insn) := r.after.listing.filter fun p => p.1 ∉ r.before.ids

end Rewrite

namespace PatternRun

/-- The replacements of a scan, in order. -/
def scanRewrites (c : ExpansionContext) : Nat → Nat → Code → List Rewrite
  | 0, _, _ => []
  | fuel + 1, i, code =>
    match Pattern.applyNext c code i (code.listing.drop i) with
    | .ok (some (j, p, next)) => ⟨j, p, code, next⟩ :: scanRewrites c fuel j next
    | _ => []

/-- The replacements that are made in a code, in order. -/
def rewrites (c : ExpansionContext) (code : Code) : List Rewrite :=
  scanRewrites c (packedAccesses c code + 1) 0 code

/-- A scan makes the replacements of its trace: it ends in the code after the last one. -/
theorem scan_eq_rewrites (c : ExpansionContext) (fuel i : Nat) (r : PatternRun) :
    (scan c fuel i r).code = ((scanRewrites c fuel i r.code).getLast?.map Rewrite.after).getD r.code ∧
    (scan c fuel i r).applied = ((scanRewrites c fuel i r.code).map Rewrite.pattern).reverse ++ r.applied := by
  induction fuel generalizing i r with
  | zero => simp [scan, scanRewrites]
  | succ fuel ih =>
    rw [scan, scanRewrites]
    match hnext : Pattern.applyNext c r.code i (r.code.listing.drop i) with
    | .error e => simp
    | .ok none => simp
    | .ok (some (j, p, next)) =>
      obtain ⟨hcode, happlied⟩ := ih j { r with code := next, applied := p :: r.applied }
      refine ⟨?_, ?_⟩
      · simp only [hcode, List.getLast?_cons]
        cases h : (scanRewrites c fuel j next).getLast? <;> simp
      · simp [happlied]

/-- What holds where a scan starts, and is kept by every replacement, holds before each replacement. -/
theorem of_mem_scanRewrites {c : ExpansionContext} {P : Code → Nat → Prop}
    (hstep : ∀ {code next : Code} {i j : Nat} {p : Pattern}, P code i →
      Pattern.applyNext c code i (code.listing.drop i) = .ok (some (j, p, next)) → P next j)
    {fuel i : Nat} {code : Code} (h : P code i) {r : Rewrite} (hr : r ∈ scanRewrites c fuel i code) :
    ∃ k, P r.before k ∧
      Pattern.applyNext c r.before k (r.before.listing.drop k) = .ok (some (r.place, r.pattern, r.after)) := by
  induction fuel generalizing i code with
  | zero => simp [scanRewrites] at hr
  | succ fuel ih =>
    rw [scanRewrites] at hr
    split at hr
    · next j p next hnext =>
      rcases List.mem_cons.mp hr with rfl | hr
      · exact ⟨i, h, hnext⟩
      · exact ih (hstep h hnext) hr
    · simp at hr

end PatternRun

end CoordSplit
