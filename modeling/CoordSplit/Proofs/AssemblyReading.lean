import CoordSplit.Assembly.Parser
import CoordSplit.Proofs.AssemblyWords
import CoordSplit.Proofs.ClassRecords

/-!
# What is read from assembly text

The classes that reading gives are spelled (`ClassModel.Spelled`): their names are words, their instructions have
operands that words can write, and everything they refer to is a label. Each line of a method body gives an item that
is spelled (`bodyItem_spelled`), resolving the labels keeps this (`OpenMethod.finish_spelled`), and so does each line
of the text (`parse_spelled`). What a line can do to what has been read is said once, in `ParseState.Reads`.
-/

set_option autoImplicit false

namespace CoordSplit

open Assembly (IsWord)

/-! ## Spelled instructions -/

/-- The integers that assembly text can write: those of 32 bits. -/
def Assembly.IsInteger (i : Int) : Prop := -2147483648 ≤ i ∧ i < 2147483648

/-- The opcodes that are written with a label. -/
def Opcode.isBranch : Opcode → Bool
  | .ifeq | .ifne | .iflt | .ifge | .ifgt | .ifle | .ifIcmpeq | .ifIcmpne | .ifIcmplt | .ifIcmpge | .ifIcmpgt
  | .ifIcmple | .ifAcmpeq | .ifAcmpne | .goto | .jsr | .ifnull | .ifnonnull => true
  | _ => false

/-- The member can be written as owner and name. -/
structure Member.Spelled (m : Member) : Prop where
  word : IsWord (m.owner ++ 35 :: m.name)
  owner : m.owner ≠ [] ∧ 35 ∉ m.owner
  name : m.name ≠ []

/-- The constants that reading gives. -/
def Constant.Spelled : Constant → Prop
  | .int _ | .long _ | .string _ => True
  | .float bits => ∃ t n, BinaryFormat.single.read? t = some n ∧ bits = UInt32.ofNat n
  | .double bits => ∃ t n, BinaryFormat.double.read? t = some n ∧ bits = UInt64.ofNat n
  | .type t => ∃ name, IsWord name ∧ t = .ofClassName name
  | .truth _ => False

/-- The keys of a switch are those that its way to be written gives. -/
def Assembly.SwitchKeys (op : Opcode) (keys : List Int32) (n : Nat) : Prop :=
  (op = .tableswitch ∧ ∃ least, IsInteger least ∧ keys = tableKeys least n) ∨ (op = .lookupswitch ∧ keys.length = n)

/-- The instructions that reading gives. -/
inductive Insn.Spelled : Insn → Prop
  | plain {op : Opcode} {e : StackEffect} (heffect : op.plainEffect? = some e) : Spelled (.plain op)
  | push {op : Opcode} (hop : op = .bipush ∨ op = .sipush) (v : Int32) : Spelled (.push op v)
  | newarray {name : Text} {v : Int32} (hname : arrayElementCode? name = some v) : Spelled (.push .newarray v)
  | ldc {c : Constant} (hc : c.Spelled) : Spelled (.ldc c)
  | var {op : Opcode} {slot : Int} (hop : op.operandKind = .slot) (hslot : Assembly.IsInteger slot) :
      Spelled (.var op slot)
  | iinc {slot : Int} (hslot : Assembly.IsInteger slot) (delta : Int32) : Spelled (.iinc slot delta)
  | jump {op : Opcode} (hop : op.isBranch = true) (target : InsnId) : Spelled (.jump op target)
  | switch {op : Opcode} {keys : List Int32} (otherwise : InsnId) {targets : List InsnId}
      (hkeys : Assembly.SwitchKeys op keys targets.length) : Spelled (.switch op keys otherwise targets)
  | field {op : Opcode} {m : Member} (hop : op.operandKind = .field) (hm : m.Spelled) (hdesc : IsWord m.desc)
      (htype : ∃ t, ValueType.parse m.desc = .ok t) : Spelled (.field op m)
  | call {op : Opcode} {m : Member} {itf : Bool} (hop : op.operandKind = .call)
      (hm : m.Spelled ∨ op = .invokedynamic ∧ m.owner = [] ∧ IsWord m.name ∧ 35 ∉ m.name) (hdesc : IsWord m.desc)
      (htype : ∃ t, MethodType.parse m.desc = .ok t) (hitf : op = .invokeinterface → itf = true) :
      Spelled (.call op m itf)
  | type {op : Opcode} {name : Text} (hop : op.operandKind = .type) (hname : IsWord name) : Spelled (.type op name)
  | multiArray {desc : Text} {dims : Int} (hdesc : IsWord desc) (hdims : Assembly.IsInteger dims) :
      Spelled (.multiArray desc dims)
  | label : Spelled .label

namespace Opcode

variable {op : Opcode}

theorem mem_named_of_kind {k : OperandKind} (h : op.operandKind = k) (hk : k ≠ .target) : op ∈ named := by
  apply mem_named
  cases op <;> first | rfl | exact absurd h.symm hk

theorem target_of_plainEffect {e : StackEffect} (h : op.plainEffect? = some e) :
    op ∈ named ∧ op.operandKind = .target := by
  have hnamed : op ∈ named := by
    apply mem_named
    cases op <;> first | rfl | cases h
  refine ⟨hnamed, ?_⟩
  cases op <;> first | rfl | cases h

theorem target_of_isBranch (h : op.isBranch = true) : op ∈ named ∧ op.operandKind = .target := by
  have hnamed : op ∈ named := by
    apply mem_named
    cases op <;> first | rfl | cases h
  refine ⟨hnamed, ?_⟩
  cases op <;> first | rfl | cases h

end Opcode

theorem Constant.Spelled.recordable {c : Constant} (h : c.Spelled) :
    c.isRecordable = true ∧ ∀ t, c = .type t → ∃ name, t = .ofClassName name := by
  cases c with
  | type t =>
    obtain ⟨name, -, rfl⟩ := h
    refine ⟨isRecordable_ofClassName name, ?_⟩
    rintro _ ⟨⟩
    exact ⟨name, rfl⟩
  | truth b => exact h.elim
  | _ => exact ⟨rfl, by simp⟩

/-- Spelled instructions are in the form that their opcodes ask for. -/
theorem Insn.Spelled.formed {x : Insn} (h : x.Spelled) : x.Formed := by
  cases h with
  | plain heffect =>
    obtain ⟨hnamed, hkind⟩ := Opcode.target_of_plainEffect heffect
    exact ⟨hnamed, hkind, by simp⟩
  | push hop v => rcases hop with rfl | rfl <;> exact ⟨Opcode.mem_named rfl, rfl, by simp⟩
  | newarray hname => exact ⟨Opcode.mem_named rfl, rfl, by simp⟩
  | ldc hc =>
    refine ⟨Opcode.mem_named rfl, rfl, ?_⟩
    rintro _ ⟨⟩
    exact hc.recordable
  | var hop hslot => exact ⟨Opcode.mem_named_of_kind hop (by decide), hop, by simp⟩
  | iinc hslot delta => exact ⟨Opcode.mem_named rfl, rfl, by simp⟩
  | jump hop target =>
    obtain ⟨hnamed, hkind⟩ := Opcode.target_of_isBranch hop
    exact ⟨hnamed, hkind, by simp⟩
  | switch otherwise hkeys =>
    rcases hkeys with ⟨rfl, -⟩ | ⟨rfl, -⟩ <;> exact ⟨Opcode.mem_named rfl, rfl, by simp⟩
  | field hop hm hdesc htype => exact ⟨Opcode.mem_named_of_kind hop (by decide), hop, by simp⟩
  | call hop hm hdesc htype hitf => exact ⟨Opcode.mem_named_of_kind hop (by decide), hop, by simp⟩
  | type hop hname => exact ⟨Opcode.mem_named_of_kind hop (by decide), hop, by simp⟩
  | multiArray hdesc hdims => exact ⟨Opcode.mem_named rfl, rfl, by simp⟩
  | label => exact ⟨Opcode.mem_named rfl, rfl, by simp⟩

/-- Spelled instructions can be written. -/
theorem Insn.Spelled.isPrintable {x : Insn} (h : x.Spelled) : x.isPrintable = true := by
  cases h with
  | @ldc c hc =>
    cases c with
    | truth b => exact hc.elim
    | _ => rfl
  | switch otherwise hkeys =>
    rcases hkeys with ⟨rfl, -⟩ | ⟨-, hlength⟩
    · rfl
    · simp [Insn.isPrintable, hlength]
  | _ => rfl

/-- A variable as reading gives it. -/
structure LocalVar.Spelled (v : LocalVar) : Prop where
  name : IsWord v.name
  desc : IsWord v.desc
  type : ∃ t, ValueType.parse v.desc = .ok t
  slot : Assembly.IsInteger v.slot
  signature : v.signature = [] ∨ IsWord v.signature

/-- The type of a handler as reading gives it. -/
def Handler.Spelled (type : Text) : Prop := type = [] ∨ IsWord type ∧ type ≠ ("any" : Text)

namespace Assembly

/-- A line of a method body whose parts are spelled. -/
def Item.Spelled : Item → Prop
  | .insn x => x.Spelled ∧ x.isLabel = false ∧ x.targets = []
  | .jump op _ => op.isBranch = true
  | .switch op keys _ targets => SwitchKeys op keys targets.length
  | .label _ => True
  | .variable v _ _ => v.Spelled
  | .handler type _ _ _ => Handler.Spelled type
  | .limits s l => IsInteger s ∧ IsInteger l

/-! ## Items of lines -/

variable {w : Text} {args : List Text} {item : Item} {op : Opcode}

theorem isInteger_of_integer {i : Int} (h : integer w = .ok i) : IsInteger i := by
  unfold integer at h
  split at h
  · next j hj =>
    obtain rfl := Except.ok.inj h
    exact Text.bounds_of_intValue hj
  · cases h

/-- A member that was read can be written. -/
theorem member_spelled {owner name desc : Text} (hw : IsWord w) (h : member w = .ok (owner, name)) :
    Member.Spelled ⟨owner, name, desc⟩ := by
  unfold member at h
  split at h
  · next owner' name' hcut =>
    split at h
    · cases h
    · next hempty =>
      obtain ⟨rfl, rfl⟩ := Prod.mk.inj (Except.ok.inj h)
      obtain ⟨hsharp, rfl⟩ := Text.cut_eq_some_iff.mp hcut
      simp only [List.isEmpty_iff, not_or] at hempty
      exact ⟨hw, ⟨hempty.1, hsharp⟩, hempty.2⟩
  · cases h

/-- A constant that was read can be written. -/
theorem constant_spelled {c : Constant} (h : constant w = .ok c) : c.Spelled := by
  have hfloat : ∀ {form : BinaryFormat} {num : Text} {bad : Text → LineError} {k : Nat → Constant},
      (floatConstant form w num bad >>= fun n => .ok (k n)) = .ok c → ∃ n, form.read? num = some n ∧ c = k n := by
    intro form num bad k h
    obtain ⟨n, hn, h⟩ := except_bind_ok.mp h
    unfold floatConstant at hn
    split at hn
    · next heq => exact ⟨n, by rw [heq, Except.ok.inj hn], (Except.ok.inj h).symm⟩
    · cases hn
  unfold constant at h
  dsimp only at h
  split at h
  · split at h
    · obtain rfl := Except.ok.inj h
      trivial
    · cases h
  · split at h
    · split at h
      · obtain rfl := Except.ok.inj h
        trivial
      · cases h
    · split at h
      · obtain ⟨n, hn, rfl⟩ := hfloat h
        exact ⟨_, n, hn, rfl⟩
      · split at h
        · obtain ⟨n, hn, rfl⟩ := hfloat h
          exact ⟨_, n, hn, rfl⟩
        · split at h
          · obtain ⟨n, hn, rfl⟩ := hfloat h
            exact ⟨_, n, hn, rfl⟩
          · split at h
            · obtain rfl := Except.ok.inj h
              trivial
            · cases h

theorem constantItem_spelled (hargs : ∀ w ∈ args, IsWord w) (h : constantItem args = .ok item) : item.Spelled := by
  unfold constantItem at h
  split at h
  · next kind name =>
    split at h
    · obtain rfl := Except.ok.inj h
      exact ⟨.ldc ⟨name, hargs name (by simp), rfl⟩, rfl, rfl⟩
    · cases h
  · obtain ⟨c, hc, h⟩ := except_bind_ok.mp h
    obtain rfl := Except.ok.inj h
    exact ⟨.ldc (constant_spelled hc), rfl, rfl⟩
  · cases h

/-- A switch that was read is spelled. -/
theorem switchItem_spelled (hop : op.operandKind = .cases) (h : switchItem op args = .ok item) : item.Spelled := by
  unfold switchItem at h
  split at h
  · next htable =>
    split at h
    · obtain ⟨least, hleast, h⟩ := except_bind_ok.mp h
      obtain rfl := Except.ok.inj h
      exact .inl ⟨htable, least, isInteger_of_integer hleast, rfl⟩
    · cases h
  · next htable =>
    have hlookup : op = .lookupswitch := by
      cases op <;> first | rfl | exact absurd rfl htable | simp [Opcode.operandKind] at hop
    split at h
    · obtain ⟨cases, -, h⟩ := except_bind_ok.mp h
      obtain rfl := Except.ok.inj h
      exact .inr ⟨hlookup, by simp⟩
    · cases h

/-- A field access that was read can be written. -/
theorem fieldItem_spelled (hop : op.operandKind = .field)
    (hargs : ∀ w ∈ args, IsWord w) (h : fieldItem op args = .ok item) : item.Spelled := by
  unfold fieldItem at h
  split at h
  · next target desc =>
    obtain ⟨⟨owner, name⟩, hmember, h⟩ := except_bind_ok.mp h
    dsimp only at h
    split at h
    · cases h
    · next t ht =>
      obtain rfl := Except.ok.inj h
      exact ⟨.field hop (member_spelled (hargs target (by simp)) hmember) (hargs desc (by simp)) ⟨t, ht⟩, rfl, rfl⟩
  · cases h

/-- A call that was read is spelled. -/
theorem callItem_spelled (hop : op.operandKind = .call)
    (hargs : ∀ w ∈ args, IsWord w) (h : callItem op args = .ok item) : item.Spelled := by
  unfold callItem at h
  dsimp only at h
  split at h
  · next target desc heq =>
    have hmem : ∀ w ∈ [target, desc], IsWord w := by
      intro w hw
      rw [← heq] at hw
      split at hw
      · exact hargs w (List.mem_of_mem_tail hw)
      · exact hargs w hw
    have htarget := hmem target (by simp)
    have hdesc := hmem desc (by simp)
    split at h
    · next hdynamic =>
      obtain ⟨hop', hsharp⟩ : op = .invokedynamic ∧ 35 ∉ target := by simpa using hdynamic
      obtain ⟨_, hpair, h⟩ := except_bind_ok.mp h
      obtain rfl := Except.ok.inj hpair
      dsimp only at h
      split at h
      · cases h
      · next t ht =>
        obtain rfl := Except.ok.inj h
        refine ⟨.call hop (.inr ⟨hop', rfl, htarget, hsharp⟩) hdesc ⟨t, ht⟩ ?_, rfl, rfl⟩
        rintro rfl
        simp
    · obtain ⟨⟨owner, name⟩, hmember, h⟩ := except_bind_ok.mp h
      dsimp only at h
      split at h
      · cases h
      · next t ht =>
        obtain rfl := Except.ok.inj h
        refine ⟨.call hop (.inl (member_spelled htarget hmember)) hdesc ⟨t, ht⟩ ?_, rfl, rfl⟩
        rintro rfl
        simp
  · cases h

/-! The items of instructions, by the kind of their operands -/

theorem insnItem_slot (h : op.operandKind = .slot) (args : List Text) :
    insnItem op args = match args with
      | [slot] => (integer slot >>= fun s => return .insn (.var op s))
      | _ => .error (.usage op "SLOT") := by
  cases op <;> first | rfl | simp [Opcode.operandKind] at h

theorem insnItem_push (h : op = .bipush ∨ op = .sipush) (args : List Text) :
    insnItem op args = match args with
      | [value] => (integer value >>= fun v => return .insn (.push op (Int32.ofInt v)))
      | _ => .error (.usage op "VALUE") := by
  rcases h with rfl | rfl <;> rfl

theorem insnItem_newarray (args : List Text) :
    insnItem .newarray args = match args with
      | [type] => match arrayElementCode? type with
        | some c => .ok (.insn (.push .newarray c))
        | none => .error (.badArrayType type)
      | _ => .error (.usage .newarray "TYPE") := rfl

theorem insnItem_iinc (args : List Text) :
    insnItem .iinc args = match args with
      | [slot, delta] => (integer slot >>= fun s => integer delta >>= fun d => return .insn (.iinc s (Int32.ofInt d)))
      | _ => .error (.usage .iinc "SLOT DELTA") := rfl

theorem insnItem_multianewarray (args : List Text) :
    insnItem .multianewarray args = match args with
      | [desc, dims] => (integer dims >>= fun d => return .insn (.multiArray desc d))
      | _ => .error (.usage .multianewarray "DESC DIMS") := rfl

theorem insnItem_branch (h : op.isBranch = true) (args : List Text) :
    insnItem op args = match args with
      | [label] => .ok (.jump op label)
      | _ => .error (.usage op "LABEL") := by
  cases op <;> first | rfl | simp [Opcode.isBranch] at h

theorem insnItem_cases (h : op.operandKind = .cases) (args : List Text) : insnItem op args = switchItem op args := by
  cases op <;> first | rfl | simp [Opcode.operandKind] at h

theorem insnItem_field (h : op.operandKind = .field) (args : List Text) : insnItem op args = fieldItem op args := by
  cases op <;> first | rfl | simp [Opcode.operandKind] at h

theorem insnItem_call (h : op.operandKind = .call) (args : List Text) : insnItem op args = callItem op args := by
  cases op <;> first | rfl | simp [Opcode.operandKind] at h

theorem insnItem_type (h : op.operandKind = .type) (args : List Text) :
    insnItem op args = match args with
      | [name] => .ok (.insn (.type op name))
      | _ => .error (.usage op "TYPE") := by
  cases op <;> first | rfl | simp [Opcode.operandKind] at h

theorem insnItem_plain (h : op.operandKind = .target ∧ op.isBranch = false) (args : List Text) :
    insnItem op args = match (Insn.plain op).effect with
      | .error e => .error (.effect e)
      | .ok _ => if args.isEmpty then .ok (.insn (.plain op)) else .error (.usage op "") := by
  cases op <;> first | rfl | simp [Opcode.operandKind, Opcode.isBranch] at h

/-- An instruction with operands that are words is spelled. -/
theorem insnItem_spelled (hargs : ∀ w ∈ args, IsWord w) (h : insnItem op args = .ok item) : item.Spelled := by
  have hunique := op.eq_of_operandKind
  cases hkind : op.operandKind <;>
    simp only [hkind, true_implies, reduceCtorEq, false_implies, true_and, and_true] at hunique
  case slot =>
    rw [insnItem_slot hkind] at h
    split at h
    · obtain ⟨s, hs, h⟩ := except_bind_ok.mp h
      obtain rfl := Except.ok.inj h
      exact ⟨.var hkind (isInteger_of_integer hs), rfl, rfl⟩
    · cases h
  case immediate =>
    have hop : (op = .bipush ∨ op = .sipush) ∨ op = .newarray := by
      cases op <;> simp [Opcode.operandKind] at hkind ⊢
    rcases hop with hop | rfl
    · rw [insnItem_push hop] at h
      split at h
      · obtain ⟨v, -, h⟩ := except_bind_ok.mp h
        obtain rfl := Except.ok.inj h
        exact ⟨.push hop _, rfl, rfl⟩
      · cases h
    · rw [insnItem_newarray] at h
      split at h
      · split at h
        · next hcode =>
          obtain rfl := Except.ok.inj h
          exact ⟨.newarray hcode, rfl, rfl⟩
        · cases h
      · cases h
  case constant =>
    subst hunique
    exact constantItem_spelled hargs h
  case increment =>
    subst hunique
    rw [insnItem_iinc] at h
    split at h
    · obtain ⟨s, hs, h⟩ := except_bind_ok.mp h
      obtain ⟨d, -, h⟩ := except_bind_ok.mp h
      obtain rfl := Except.ok.inj h
      exact ⟨.iinc (isInteger_of_integer hs) _, rfl, rfl⟩
    · cases h
  case field =>
    rw [insnItem_field hkind] at h
    exact fieldItem_spelled hkind hargs h
  case call =>
    rw [insnItem_call hkind] at h
    exact callItem_spelled hkind hargs h
  case type =>
    rw [insnItem_type hkind] at h
    split at h
    · next name =>
      obtain rfl := Except.ok.inj h
      exact ⟨.type hkind (hargs name (by simp)), rfl, rfl⟩
    · cases h
  case dimensions =>
    subst hunique
    rw [insnItem_multianewarray] at h
    split at h
    · next desc dims =>
      obtain ⟨d, hd, h⟩ := except_bind_ok.mp h
      obtain rfl := Except.ok.inj h
      exact ⟨.multiArray (hargs desc (by simp)) (isInteger_of_integer hd), rfl, rfl⟩
    · cases h
  case cases =>
    rw [insnItem_cases hkind] at h
    exact switchItem_spelled hkind h
  case target =>
    by_cases hbranch : op.isBranch = true
    · rw [insnItem_branch hbranch] at h
      split at h
      · obtain rfl := Except.ok.inj h
        exact hbranch
      · cases h
    · rw [insnItem_plain ⟨hkind, by simpa using hbranch⟩, Insn.effect] at h
      cases heffect : op.plainEffect? with
      | none => simp [heffect] at h
      | some e =>
        simp only [heffect] at h
        split at h
        · obtain rfl := Except.ok.inj h
          exact ⟨.plain heffect, rfl, rfl⟩
        · cases h
  case mark =>
    subst hunique
    cases h

/-- A variable that was read is spelled. -/
theorem variableItem_spelled (hargs : ∀ w ∈ args, IsWord w) (h : variableItem args = .ok item) : item.Spelled := by
  unfold variableItem at h
  split at h
  · next name desc slot start stop signature =>
    split at h
    · cases h
    · obtain ⟨s, hs, h⟩ := except_bind_ok.mp h
      split at h
      · cases h
      · next t ht =>
        obtain rfl := Except.ok.inj h
        refine ⟨hargs name (by simp), hargs desc (by simp), ⟨t, ht⟩, isInteger_of_integer hs, ?_⟩
        cases signature with
        | nil => exact .inl rfl
        | cons w ws => exact .inr (hargs w (by simp))
  · cases h

theorem handlerItem_spelled (hargs : ∀ w ∈ args, IsWord w) (h : handlerItem args = .ok item) : item.Spelled := by
  unfold handlerItem at h
  split at h
  · next type start stop handler =>
    obtain rfl := Except.ok.inj h
    by_cases hany : type = ("any" : Text)
    · rw [if_pos hany]
      exact .inl rfl
    · rw [if_neg hany]
      exact .inr ⟨hargs type (by simp), hany⟩
  · cases h

theorem limitsItem_spelled (h : limitsItem args = .ok item) : item.Spelled := by
  unfold limitsItem at h
  split at h
  · obtain ⟨s, hs, h⟩ := except_bind_ok.mp h
    obtain ⟨l, hl, h⟩ := except_bind_ok.mp h
    obtain rfl := Except.ok.inj h
    exact ⟨isInteger_of_integer hs, isInteger_of_integer hl⟩
  · cases h

/-- A line of words is spelled. -/
theorem bodyItem_spelled {word : Text} (hargs : ∀ w ∈ args, IsWord w)
    (h : bodyItem word args = .ok item) : item.Spelled := by
  unfold bodyItem at h
  split_ifs at h
  · exact limitsItem_spelled h
  · exact variableItem_spelled hargs h
  · exact handlerItem_spelled hargs h
  · obtain rfl := Except.ok.inj h
    trivial
  · split at h
    · split at h
      · cases h
      · exact insnItem_spelled hargs h
    · cases h

end Assembly

/-! ## Spelled methods -/

/-- A method as reading gives it. -/
structure Method.Spelled (m : Method) : Prop where
  name : IsWord m.name
  desc : IsWord m.desc
  type : ∃ t, MethodType.parse m.desc = .ok t
  access : m.access.Named
  ordered : m.Ordered
  anchored : m.Anchored
  insns : ∀ p ∈ m.code.listing, p.2.Spelled
  locals : ∀ v ∈ m.locals, v.Spelled
  handlers : ∀ h ∈ m.handlers, Handler.Spelled h.type
  limits : Assembly.IsInteger m.maxStack ∧ Assembly.IsInteger m.maxLocals

namespace Assembly.OpenMethod

/-- A method whose lines so far are spelled. -/
structure Spelled (m : OpenMethod) : Prop where
  name : IsWord m.name
  desc : IsWord m.desc
  type : ∃ t, MethodType.parse m.desc = .ok t
  access : m.access.Named
  body : ∀ l ∈ m.body, l.2.Spelled

/-- A line of the body with its labels resolved. -/
def resolveLine (labels : List (Text × InsnId)) (l : Nat × Item) (r : Resolved) : Except SourceError Resolved :=
  let id := resolve labels l.1
  match l.2 with
  | .insn x => .ok { r with code := x :: r.code }
  | .label _ => .ok { r with code := .label :: r.code }
  | .jump op target => do
    let t ← id target
    pure { r with code := .jump op t :: r.code }
  | .switch op keys otherwise targets => do
    let d ← id otherwise
    let ts ← targets.mapM id
    pure { r with code := .switch op keys d ts :: r.code }
  | .variable v start stop => do
    let s ← id start
    let e ← id stop
    pure { r with locals := { v with start := s, stop := e } :: r.locals }
  | .handler type start stop handler => do
    let s ← id start
    let e ← id stop
    let h ← id handler
    pure { r with handlers := ⟨type, s, e, h⟩ :: r.handlers }
  | .limits s l => .ok { r with limits := (s, l) }

theorem resolveBody_cons (labels : List (Text × InsnId)) (l : Nat × Item) (rest : List (Nat × Item)) (r : Resolved) :
    resolveBody labels (l :: rest) r = resolveLine labels l r >>= resolveBody labels rest := by
  obtain ⟨line, item⟩ := l
  cases item <;> simp [resolveBody, resolveLine, bind_assoc] <;> rfl

/-- What the labels stand for. -/
def Target (labels : List (Text × InsnId)) (q : InsnId) : Prop := ∃ name, labels.lookup name = some q

theorem target_of_resolve {labels : List (Text × InsnId)} {line : Nat} {name : Text} {q : InsnId}
    (h : resolve labels line name = .ok q) : Target labels q := by
  unfold resolve at h
  split at h
  · next id hid => exact ⟨name, hid.trans (congrArg some (Except.ok.inj h))⟩
  · cases h

/-- Everything that has been resolved is spelled, and refers to what the labels stand for. -/
structure Resolved.Spelled (labels : List (Text × InsnId)) (r : Resolved) : Prop where
  code : ∀ x ∈ r.code, x.Spelled ∧ ∀ t ∈ x.targets, Target labels t
  locals : ∀ v ∈ r.locals, v.Spelled ∧ Target labels v.start ∧ Target labels v.stop
  handlers : ∀ h ∈ r.handlers,
    Handler.Spelled h.type ∧ Target labels h.start ∧ Target labels h.stop ∧ Target labels h.handler
  limits : IsInteger r.limits.1 ∧ IsInteger r.limits.2

variable {labels : List (Text × InsnId)} {l : Nat × Item} {body : List (Nat × Item)} {r r' : Resolved}

/-- A resolved line is spelled. -/
theorem Resolved.Spelled.of_line (hr : r.Spelled labels) (hl : l.2.Spelled) (h : resolveLine labels l r = .ok r') :
    r'.Spelled labels := by
  have hcode : ∀ x : Insn, x.Spelled → (∀ t ∈ x.targets, Target labels t) →
      Resolved.Spelled labels { r with code := x :: r.code } := by
    intro x hx htargets
    refine ⟨?_, hr.locals, hr.handlers, hr.limits⟩
    exact List.forall_mem_cons.mpr ⟨⟨hx, htargets⟩, hr.code⟩
  obtain ⟨line, item⟩ := l
  cases item with
  | insn x =>
    obtain rfl := Except.ok.inj h
    obtain ⟨hx, -, htargets⟩ := hl
    exact hcode x hx (by simp [htargets])
  | label name =>
    obtain rfl := Except.ok.inj h
    exact hcode .label .label (by simp [Insn.targets])
  | jump op target =>
    obtain ⟨t, ht, h⟩ := except_bind_ok.mp h
    obtain rfl := Except.ok.inj h
    refine hcode _ (.jump hl t) ?_
    simpa [Insn.targets] using target_of_resolve ht
  | switch op keys otherwise targets =>
    obtain ⟨d, hd, h⟩ := except_bind_ok.mp h
    obtain ⟨ts, hts, h⟩ := except_bind_ok.mp h
    obtain rfl := Except.ok.inj h
    have hresolved := mapM_ok_iff.mp hts
    refine hcode _ (.switch d (hresolved.length_eq ▸ hl)) ?_
    intro t ht
    rcases List.mem_cons.mp ht with rfl | ht
    · exact target_of_resolve hd
    · obtain ⟨name, -, hname⟩ := forall₂_mem_right hresolved ht
      exact target_of_resolve hname
  | «variable» v start stop =>
    obtain ⟨s, hs, h⟩ := except_bind_ok.mp h
    obtain ⟨e, he, h⟩ := except_bind_ok.mp h
    obtain rfl := Except.ok.inj h
    refine ⟨hr.code, ?_, hr.handlers, hr.limits⟩
    intro w hw
    rcases List.mem_cons.mp hw with rfl | hw
    · exact ⟨⟨hl.name, hl.desc, hl.type, hl.slot, hl.signature⟩, target_of_resolve hs, target_of_resolve he⟩
    · exact hr.locals w hw
  | handler type start stop handler =>
    obtain ⟨s, hs, h⟩ := except_bind_ok.mp h
    obtain ⟨e, he, h⟩ := except_bind_ok.mp h
    obtain ⟨q, hq, h⟩ := except_bind_ok.mp h
    obtain rfl := Except.ok.inj h
    refine ⟨hr.code, hr.locals, ?_, hr.limits⟩
    exact List.forall_mem_cons.mpr ⟨⟨hl, target_of_resolve hs, target_of_resolve he, target_of_resolve hq⟩, hr.handlers⟩
  | limits s e =>
    obtain rfl := Except.ok.inj h
    exact ⟨hr.code, hr.locals, hr.handlers, hl⟩

theorem Resolved.Spelled.of_body (hr : r.Spelled labels) (hbody : ∀ l ∈ body, l.2.Spelled)
    (h : resolveBody labels body r = .ok r') : r'.Spelled labels := by
  induction body generalizing r with
  | nil =>
    obtain rfl := Except.ok.inj h
    exact hr
  | cons l body ih =>
    rw [resolveBody_cons] at h
    obtain ⟨next, hnext, h⟩ := except_bind_ok.mp h
    exact ih (hr.of_line (hbody l (by simp)) hnext) (fun k hk => hbody k (by simp [hk])) h

/-- A line of code adds one instruction, and any other line adds none. -/
theorem code_of_resolveLine (h : resolveLine labels l r = .ok r') :
    if isCode l.2 then ∃ x, r'.code = x :: r.code ∧ ∀ name, l.2 = .label name → x = .label else r'.code = r.code := by
  obtain ⟨line, item⟩ := l
  cases item with
  | insn x | label name =>
    obtain rfl := Except.ok.inj h
    exact ⟨_, rfl, by simp⟩
  | jump op target =>
    obtain ⟨t, -, h⟩ := except_bind_ok.mp h
    obtain rfl := Except.ok.inj h
    exact ⟨_, rfl, by simp⟩
  | switch op keys otherwise targets =>
    obtain ⟨d, -, h⟩ := except_bind_ok.mp h
    obtain ⟨ts, -, h⟩ := except_bind_ok.mp h
    obtain rfl := Except.ok.inj h
    exact ⟨_, rfl, by simp⟩
  | «variable» v start stop =>
    obtain ⟨s, -, h⟩ := except_bind_ok.mp h
    obtain ⟨e, -, h⟩ := except_bind_ok.mp h
    obtain rfl := Except.ok.inj h
    rfl
  | handler type start stop handler =>
    obtain ⟨s, -, h⟩ := except_bind_ok.mp h
    obtain ⟨e, -, h⟩ := except_bind_ok.mp h
    obtain ⟨q, -, h⟩ := except_bind_ok.mp h
    obtain rfl := Except.ok.inj h
    rfl
  | limits s e =>
    obtain rfl := Except.ok.inj h
    rfl

theorem labelIds_cons (n : Nat) (l : Nat × Item) (rest : List (Nat × Item)) {p : Text × InsnId}
    (hp : p ∈ labelIds n (l :: rest)) :
    (∃ name, l.2 = .label name ∧ p.2 = (n : Int)) ∨ p ∈ labelIds (if isCode l.2 then n + 1 else n) rest := by
  obtain ⟨line, item⟩ := l
  cases item with
  | label name =>
    rcases List.mem_cons.mp hp with rfl | hp
    · exact .inl ⟨name, rfl, rfl⟩
    · exact .inr hp
  | _ => exact .inr hp

/-- The labels of the lines that are left stand where their ids say. -/
theorem getElem?_code_of_resolveBody (h : resolveBody labels body r = .ok r') :
    (∃ more, r'.code = more ++ r.code) ∧
      ∀ p ∈ labelIds r.code.length body, ∃ k : Nat, p.2 = (k : Int) ∧ r'.code.reverse[k]? = some .label := by
  induction body generalizing r with
  | nil =>
    obtain rfl := Except.ok.inj h
    exact ⟨⟨[], rfl⟩, by simp [labelIds]⟩
  | cons l body ih =>
    rw [resolveBody_cons] at h
    obtain ⟨next, hnext, h⟩ := except_bind_ok.mp h
    obtain ⟨⟨more, hmore⟩, hlabels⟩ := ih h
    have hline := code_of_resolveLine hnext
    by_cases hcode : isCode l.2 = true
    · rw [if_pos hcode] at hline
      obtain ⟨x, hx, hlabel⟩ := hline
      refine ⟨⟨more ++ [x], by simp [hmore, hx]⟩, ?_⟩
      intro p hp
      rcases labelIds_cons _ _ _ hp with ⟨name, hname, hid⟩ | hp
      · obtain rfl := hlabel name hname
        refine ⟨r.code.length, hid, ?_⟩
        simp [hmore, hx]
      · refine hlabels p ?_
        simpa [hx, hcode] using hp
    · rw [if_neg hcode] at hline
      refine ⟨⟨more, by rw [hmore, hline]⟩, ?_⟩
      intro p hp
      rcases labelIds_cons _ _ _ hp with ⟨name, hname, -⟩ | hp
      · simp [hname, isCode] at hcode
      · refine hlabels p ?_
        simpa [hline, hcode] using hp

theorem mem_of_lookup {name : Text} {q : InsnId} (h : labels.lookup name = some q) : ∃ p ∈ labels, p.2 = q := by
  obtain ⟨l₁, l₂, rfl, -⟩ := List.lookup_eq_some_iff.mp h
  exact ⟨(name, q), by simp, rfl⟩

/-- A method whose lines are spelled is spelled when it is finished. -/
theorem finish_spelled {m : OpenMethod} {done : Method} (hm : m.Spelled) (h : m.finish = .ok done) : done.Spelled := by
  unfold finish at h
  obtain ⟨r, hr, h⟩ := except_bind_ok.mp h
  obtain rfl := Except.ok.inj h
  have hspelled : r.Spelled (labelIds 0 m.body.reverse) := by
    refine Resolved.Spelled.of_body ⟨by simp, by simp, by simp, ?_⟩ (fun l hl => hm.body l (by simpa using hl)) hr
    simp [IsInteger]
  have hlabel : ∀ q, Target (labelIds 0 m.body.reverse) q → q ∈ (Code.ofList r.code.reverse).labels := by
    rintro q ⟨name, hname⟩
    obtain ⟨p, hp, rfl⟩ := mem_of_lookup hname
    obtain ⟨k, hk, hcode⟩ := (getElem?_code_of_resolveBody hr).2 p hp
    rw [Code.mem_labels]
    exact Code.mem_listing_ofList.mpr ⟨k, hcode, hk⟩
  have hlines : ∀ p ∈ (Code.ofList r.code.reverse).listing, p.2 ∈ r.code := by
    intro p hp
    obtain ⟨k, hk, -⟩ := Code.mem_listing_ofList.mp hp
    exact List.mem_reverse.mp (List.mem_of_getElem? hk)
  constructor
  case name => exact hm.name
  case desc => exact hm.desc
  case type => exact hm.type
  case access => exact hm.access
  case ordered => exact ⟨_, rfl⟩
  case anchored =>
    apply Method.anchored_iff.mpr
    refine ⟨?_, ?_, ?_⟩
    · intro p hp t ht
      exact hlabel t ((hspelled.code p.2 (hlines p hp)).2 t ht)
    · intro v hv
      obtain ⟨-, hstart, hstop⟩ := hspelled.locals v (by simpa using hv)
      exact ⟨hlabel _ hstart, hlabel _ hstop⟩
    · intro x hx
      obtain ⟨-, hstart, hstop, hhandler⟩ := hspelled.handlers x (by simpa using hx)
      exact ⟨hlabel _ hstart, hlabel _ hstop, hlabel _ hhandler⟩
  case insns => exact fun p hp => (hspelled.code p.2 (hlines p hp)).1
  case locals => exact fun v hv => (hspelled.locals v (by simpa using hv)).1
  case handlers => exact fun x hx => (hspelled.handlers x (by simpa using hx)).1
  case limits => exact hspelled.limits

end Assembly.OpenMethod

/-! ## Spelled classes -/

/-- A class as reading gives it. -/
structure ClassModel.Spelled (c : ClassModel) : Prop where
  name : IsWord c.name
  parent : IsWord c.parent
  methods : ∀ m ∈ c.methods, m.Spelled

namespace Assembly

theorem accessFlags_ok_iff {fs : List Text} {a : Access} : accessFlags fs = .ok a ↔ Access.ofNames? fs = some a := by
  apply Access.ok_iff_ofNames?
  · rfl
  · intro n rest hn
    exact ⟨_, by rw [accessFlags, hn]⟩
  · intro n rest b hn
    rw [accessFlags, hn]

/-- A method that is opened is spelled. -/
theorem methodLine_spelled {args : List Text} {m : OpenMethod} (hargs : ∀ w ∈ args, IsWord w)
    (h : methodLine args = .ok m) : m.Spelled := by
  unfold methodLine at h
  split at h
  · next desc name flags hreverse =>
    have hmem : ∀ w ∈ desc :: name :: flags, IsWord w := by
      intro w hw
      rw [← hreverse] at hw
      exact hargs w (List.mem_reverse.mp hw)
    split at h
    · cases h
    · next t ht =>
      cases haccess : accessFlags flags.reverse with
      | error e => simp [haccess, Except.map] at h
      | ok a =>
        rw [haccess] at h
        obtain rfl := Except.ok.inj h
        exact ⟨hmem name (by simp), hmem desc (by simp), ⟨t, ht⟩,
          Access.named_of_ofNames? (accessFlags_ok_iff.mp haccess), by simp⟩
  · cases h

/-- What has been read is spelled. -/
structure ParseState.Spelled (s : ParseState) : Prop where
  model : ∀ c, s.classModel = some c → c.Spelled
  method : ∀ m, s.method = some m → m.Spelled

theorem isWord_defaultParent : IsWord ClassModel.defaultParent := by
  have hbytes : ClassModel.defaultParent = 106 :: ("ava/lang/Object" : Text) := by decide
  have hall : ((106 :: ("ava/lang/Object" : Text)).all fun c => !isBreak c) = true := by decide
  rw [hbytes]
  exact isWord_of_forall (by decide) fun c hc => by simpa using List.all_eq_true.mp hall c hc

/-- The line closes the method that is being read. -/
def ParseState.ClosedBy (s : ParseState) (words : List Text) : Prop :=
  ∃ c m args, s.classModel = some c ∧ s.method = some m ∧ words = ("end" : Text) :: args

variable {s : ParseState}

theorem not_closedBy {word : Text} (h : word ≠ "end") (args : List Text) : ¬ s.ClosedBy (word :: args) := by
  rintro ⟨c, m, args', hc, hm, heq⟩
  exact h (List.cons.inj heq).1

/-- What comes of a line. It is refused on its own account, or it is empty, names the class, opens a method, adds to the
one that is being read, or closes it; only then can an error be about another line. -/
inductive ParseState.Reads (s : ParseState) (words : List Text) : Except SourceError ParseState → Prop
  | refused {cause : LineError} (hopen : ¬ s.ClosedBy words) : Reads s words (.error ⟨s.line, cause⟩)
  | blank (hwords : words = []) : Reads s words (.ok s)
  | named {name parent : Text} (hname : name ∈ words) (hparent : parent ∈ words ∨ parent = ClassModel.defaultParent) :
      Reads s words (.ok { s with classModel := some ⟨name, parent, []⟩ })
  | opened {args : List Text} {m : OpenMethod} (hwords : words = ("method" : Text) :: args)
      (hm : methodLine args = .ok m) : Reads s words (.ok { s with method := some m })
  | added {m : OpenMethod} {word : Text} {args : List Text} {item : Item} (hm : s.method = some m)
      (hwords : words = word :: args) (hitem : bodyItem word args = .ok item) :
      Reads s words (.ok { s with method := some { m with body := (s.line, item) :: m.body } })
  | closed {c : ClassModel} {m : OpenMethod} {done : Method} (hc : s.classModel = some c) (hm : s.method = some m)
      (hfinish : m.finish = .ok done) :
      Reads s words (.ok { s with classModel := some { c with methods := done :: c.methods }, method := none })
  | unfinished {m : OpenMethod} {args : List Text} {e : SourceError} (hm : s.method = some m)
      (hwords : words = ("end" : Text) :: args) (hfinish : m.finish = .error e) : Reads s words (.error e)

/-- Each line does one of these. -/
theorem reads_readLine (s : ParseState) (words : List Text) : s.Reads words (readLine s words) := by
  unfold readLine
  dsimp only
  split
  · exact .blank rfl
  · next word args =>
    split
    · next hword =>
      have hopen : ¬ s.ClosedBy (word :: args) := not_closedBy (hword ▸ by decide) args
      split
      · exact .refused hopen
      · split
        · exact .named (by simp) (.inr rfl)
        · exact .named (by simp) (.inl (by simp))
        · exact .refused hopen
    · split
      · next hnone => exact .refused (by simp [ParseState.ClosedBy, hnone])
      · next c hc =>
        split
        · next hword =>
          have hopen : ¬ s.ClosedBy (word :: args) := not_closedBy (hword ▸ by decide) args
          split
          · exact .refused hopen
          · split
            · exact .refused hopen
            · next m hm => exact .opened (by rw [hword]) hm
        · split
          · next hnone => exact .refused (by simp [ParseState.ClosedBy, hnone])
          · next m hm =>
            split
            · next hword =>
              cases hfinish : m.finish with
              | error e => exact .unfinished hm (by rw [hword]) hfinish
              | ok done => exact .closed hc hm hfinish
            · next hword =>
              have hopen : ¬ s.ClosedBy (word :: args) := not_closedBy hword args
              split
              · exact .refused hopen
              · next name hitem =>
                split
                · exact .refused hopen
                · exact .added hm rfl hitem
              · next item _ hitem => exact .added hm rfl hitem

/-- A line of words leaves what has been read spelled. -/
theorem readLine_spelled {s' : ParseState} {words : List Text} (hs : s.Spelled) (hwords : ∀ w ∈ words, IsWord w)
    (h : readLine s words = .ok s') : s'.Spelled := by
  have hreads := reads_readLine s words
  rw [h] at hreads
  cases hreads with
  | blank => exact hs
  | @named name parent hname hparent =>
    refine ⟨?_, hs.method⟩
    rintro _ ⟨⟩
    refine ⟨hwords name hname, ?_, by simp⟩
    rcases hparent with hparent | rfl
    · exact hwords parent hparent
    · exact isWord_defaultParent
  | opened hargs hm =>
    refine ⟨hs.model, ?_⟩
    rintro _ ⟨⟩
    exact methodLine_spelled (fun w hw => hwords w (by simp [hargs, hw])) hm
  | @added m word args item hm hline hitem =>
    have hopen := hs.method m hm
    have hargs : ∀ w ∈ args, IsWord w := fun w hw => hwords w (by simp [hline, hw])
    refine ⟨hs.model, ?_⟩
    rintro _ ⟨⟩
    exact ⟨hopen.name, hopen.desc, hopen.type, hopen.access,
      List.forall_mem_cons.mpr ⟨bodyItem_spelled hargs hitem, hopen.body⟩⟩
  | @closed c m done hc hm hfinish =>
    have hmodel := hs.model c hc
    refine ⟨?_, by simp⟩
    rintro _ ⟨⟩
    exact ⟨hmodel.name, hmodel.parent,
      List.forall_mem_cons.mpr ⟨OpenMethod.finish_spelled (hs.method m hm) hfinish, hmodel.methods⟩⟩

/-- Lines keep what has been read spelled. -/
theorem readLines_spelled {s' : ParseState} {ls : List (Option (List Text))} (hs : s.Spelled)
    (hls : ∀ ws, some ws ∈ ls → ∀ w ∈ ws, IsWord w) (h : readLines s ls = .ok s') : s'.Spelled := by
  induction ls generalizing s with
  | nil =>
    obtain rfl := Except.ok.inj h
    exact hs
  | cons l ls ih =>
    unfold readLines at h
    dsimp only at h
    split at h
    · cases h
    · next words =>
      split at h
      · cases h
      · next next hnext =>
        have hcounted : ParseState.Spelled { s with line := s.line + 1 } := ⟨hs.model, hs.method⟩
        refine ih (readLine_spelled hcounted (hls words (by simp)) hnext) ?_ h
        intro ws hws
        exact hls ws (by simp [hws])

/-- The class of a text is spelled. -/
theorem parse_spelled {t : Text} {c : ClassModel} (h : parse t = .ok c) : c.Spelled := by
  unfold parse at h
  obtain ⟨s, hs, h⟩ := except_bind_ok.mp h
  have hspelled := readLines_spelled ⟨by simp, by simp⟩ (fun ws hws w => isWord_of_mem_lines hws) hs
  split at h
  · cases h
  · split at h
    · cases h
    · next c' hc =>
      obtain rfl := Except.ok.inj h
      have hmodel := hspelled.model c' hc
      exact ⟨hmodel.name, hmodel.parent, fun m hm => hmodel.methods m (by simpa using hm)⟩

end Assembly

end CoordSplit
