import CoordSplit.Proofs.MovedTyping
import CoordSplit.Proofs.PatternScan
import CoordSplit.Proofs.TypedEdits

/-!
# Typing of code with patterns replaced

What a pattern puts in can be typed where what it takes out could (`Pattern.Rewrites.segment`), so a scan keeps a
code typed (`Typed.scan`). Where the parts of a coordinate are stored one by one, some are stored and others are
not; a handler can be reached then only with what is known both before and after the window, and that is known
all the time.
-/

set_option autoImplicit false

namespace CoordSplit

open Code Insn

variable {c : ExpansionContext} {E : IndexSet} {Leads : InsnId → FrameType → Prop} {Safe : LocalKinds → Prop}
  {Exit : FrameType → Prop} {ls : List (InsnId × Insn)} {t : FrameType}

/-! ## Passing with more known -/

/-- Knowing more does no harm: neither to branches nor at the end, nor to handlers, for which it is enough to know
what two safe states have in common. -/
structure Passage (Leads : InsnId → FrameType → Prop) (Safe : LocalKinds → Prop) (Exit : FrameType → Prop) : Prop where
  go : ∀ q t u, t.Refines u → Leads q u → Leads q t
  safe : ∀ L L' M : LocalKinds, Safe L → Safe L' → (∀ j κ, L j κ → L' j κ → M j κ) → Safe M
  exit : ∀ t u : FrameType, t.Refines u → Exit u → Exit t

theorem TypeTable.passage (T : TypeTable) (hs : List Handler) (pre post : List (InsnId × Insn)) :
    Passage T.Admits (T.Guards hs pre post) (T.Continues post) := by
  refine ⟨?_, ?_, ?_⟩
  · intro q t u hrefines hu
    exact hu.of_refines hrefines
  · intro L L' M hL hL' hM h hh hstart hstop
    obtain ⟨u, hu, hrefines⟩ := hL h hh hstart hstop
    obtain ⟨u', hu', hrefines'⟩ := hL' h hh hstart hstop
    obtain rfl := Option.some.inj (hu.symm.trans hu')
    exact ⟨u, hu, hrefines.stack, fun j κ hj => hM j κ (hrefines.locals j κ hj) (hrefines'.locals j κ hj)⟩
  · rintro t u hrefines ⟨p, rest, rfl, hp⟩
    exact ⟨p, rest, rfl, hp.of_refines hrefines⟩

section

variable {first : Int → Bool}

theorem Runs.of_refines {R : InsnId → Insn → FrameType → FrameType → Prop} (hpass : Passage Leads Safe Exit)
    {t u : FrameType} (h : Runs R Leads Safe Exit ls u) (ht : t.Refines u) : Runs R Leads Safe Exit ls t := by
  cases h with
  | done hu => exact .done (hpass.exit t u ht hu)
  | line hrefines hrule hgo hbefore hafter hrest =>
    exact .line (ht.trans hrefines) hrule hgo hbefore hafter hrest

/-- The first line can be passed with all that is known. -/
theorem Runs.head (hpass : Passage Leads Safe Exit) {id : InsnId} {x : Insn}
    {t : FrameType} (h : Runs (fun _ => KindStep first) Leads Safe Exit ((id, x) :: ls) t) :
    ∃ t', KindStep first x t t' ∧ (∀ q ∈ x.targets, Leads q t') ∧ Safe t.locals ∧ Safe t'.locals ∧
      (x.opcode.falls = true → Runs (fun _ => KindStep first) Leads Safe Exit ls t') := by
  cases h with
  | line hrefines hrule hgo hbefore hafter hrest =>
    obtain ⟨t', hstep, href⟩ := hrule.mono hrefines
    refine ⟨t', hstep, fun q hq => hpass.go q _ _ href (hgo q hq), ?_, ?_,
      fun hfalls => (hrest hfalls).of_refines hpass href⟩
    · exact hpass.safe _ _ _ hbefore hbefore fun j κ hj _ => hrefines.locals j κ hj
    · exact hpass.safe _ _ _ hafter hafter fun j κ hj _ => href.locals j κ hj

/-- The first line of a window can be passed with all that is known. -/
theorem Runs.next (hpass : Passage Leads Safe Exit) {w : List (InsnId × Insn)} {x : Insn} {xs : List Insn}
    (hw : w.map Prod.snd = x :: xs) {t : FrameType} (h : Runs (fun _ => KindStep first) Leads Safe Exit w t) :
    ∃ w' t', w'.map Prod.snd = xs ∧ KindStep first x t t' ∧ (∀ q ∈ x.targets, Leads q t') ∧ Safe t.locals ∧
      Safe t'.locals ∧ (x.opcode.falls = true → Runs (fun _ => KindStep first) Leads Safe Exit w' t') := by
  obtain ⟨id, w', rfl, hw'⟩ := Machine.exists_line hw
  obtain ⟨t', hhead⟩ := h.head hpass
  exact ⟨w', t', hw', hhead⟩

/-- What is left when all lines of a window have been passed. -/
theorem Runs.exit {R : InsnId → Insn → FrameType → FrameType → Prop} {w : List (InsnId × Insn)} {t : FrameType}
    (h : Runs R Leads Safe Exit w t) (hw : w.map Prod.snd = []) : Exit t := by
  obtain rfl := List.map_eq_nil_iff.mp hw
  cases h with
  | done hexit => exact hexit

/-- A line that neither branches nor changes the local slots. -/
theorem Runs.step {id : InsnId} {x : Insn} {stack stack' : List Kind} {L : LocalKinds}
    (hstep : KindStep first x ⟨stack, L⟩ ⟨stack', L⟩) (htargets : x.targets = []) (hsafe : Safe L)
    (hrest : Runs (fun _ => KindStep first) Leads Safe Exit ls ⟨stack', L⟩) :
    Runs (fun _ => KindStep first) Leads Safe Exit ((id, x) :: ls) ⟨stack, L⟩ :=
  .line (.refl _) hstep (by simp [htargets]) hsafe hsafe fun _ => hrest

end

/-- Lines are passed by the kinds that they take and leave. -/
abbrev KindRuns (c : ExpansionContext) (Leads : InsnId → FrameType → Prop) (Safe : LocalKinds → Prop)
    (Exit : FrameType → Prop) : List (InsnId × Insn) → FrameType → Prop :=
  Runs (fun _ => KindStep c.slots.isFirst) Leads Safe Exit

/-! ## Instructions of windows -/

section

variable {t' : FrameType}

/-- The three slots of an operand that is loaded are known to hold ints. -/
def OperandKnown (x : Insn) (L : LocalKinds) : Prop :=
  ∀ j, x = .var .lload j → L j .int ∧ L (j + 1) .int ∧ L (j + 2) .int

variable {x : Insn} {first : Int → Bool} {op : Opcode} {m : Member} {itf : Bool}

theorem OperandKnown.part {L : LocalKinds} (h : OperandKnown x L) {j : Int} (hj : x = .var .lload j)
    (axis : Axis) : L (j + axis.index) .int := by
  obtain ⟨hx, hy, hz⟩ := h j hj
  cases axis with
  | x => simpa [Axis.index] using hx
  | y => exact hy
  | z => exact hz

theorem falls_of_operand (hx : c.isOperand x = true) : x.opcode.falls = true := by
  rcases Machine.isOperand_iff.mp hx with ⟨j, rfl, -⟩ | rfl <;> rfl

/-- An operand pushes a long. -/
theorem kindStep_operand_iff (hx : c.isOperand x = true) :
    KindStep c.slots.isFirst x t t' ↔ OperandKnown x t.locals ∧ t' = ⟨.long :: t.stack, t.locals⟩ := by
  rcases Machine.isOperand_iff.mp hx with ⟨j, rfl, hfirst⟩ | rfl
  · rw [kindStep_packedLoad_iff hfirst]
    constructor
    · rintro ⟨hknown, ht'⟩
      refine ⟨?_, ht'⟩
      rintro _ ⟨⟩
      exact hknown
    · rintro ⟨hknown, ht'⟩
      exact ⟨hknown j rfl, ht'⟩
  · have hg : (ldc (.long c.catalog.sentinel.packed)).signature? = some ⟨[], some .long⟩ := rfl
    rw [kindStep_fixed_iff [] [.long] hg rfl rfl (.inl rfl)]
    constructor
    · rintro ⟨rest, hstack, rfl⟩
      refine ⟨?_, by rw [hstack]; rfl⟩
      rintro j ⟨⟩
    · rintro ⟨-, rfl⟩
      exact ⟨t.stack, rfl, rfl⟩

theorem kindStep_narrow (hx : c.isOperand x = true) (axis : Axis) {L : LocalKinds}
    (hL : ∀ j, x = .var .lload j → L (j + axis.index) .int) (stack : List Kind) :
    KindStep c.slots.isFirst (c.narrow x axis) ⟨stack, L⟩ ⟨.int :: stack, L⟩ := by
  rcases Machine.isOperand_iff.mp hx with ⟨j, rfl, hfirst⟩ | rfl
  · exact (kindStep_load_iff (.inl rfl)).mpr ⟨.int, hL j rfl, rfl, rfl⟩
  · have hg : (ldc (.int c.catalog.sentinel.narrow)).signature? = some ⟨[], some .int⟩ := rfl
    exact kindStep_regular [] [.int] hg rfl rfl stack L

/-- What pushes an int or a reference goes on with the next line. It reads a slot or a static field, or pushes a value
of a type that depends on nothing. -/
theorem push_cases (hx : x.isIntPush = true ∨ x.isRefPush = true) : x.opcode.falls = true ∧ x.targets = [] ∧
    ((∃ op j, x = .var op j ∧ (op = .iload ∨ op = .aload)) ∨ (∃ u, x.signature? = some ⟨[], some u⟩) ∨
      ∃ m, x = .field .getstatic m) := by
  cases x with
  | var op j =>
    have hop : op = .iload ∨ op = .aload := by simpa [isIntPush, isRefPush] using hx
    exact ⟨by rcases hop with rfl | rfl <;> rfl, rfl, .inl ⟨op, j, rfl, hop⟩⟩
  | push op value =>
    have hop : op = .bipush ∨ op = .sipush := by simpa [isIntPush, isRefPush] using hx
    rcases hop with rfl | rfl <;> exact ⟨rfl, rfl, .inr (.inl ⟨.int, rfl⟩)⟩
  | plain op =>
    rcases hx with hx | hx
    · simp only [isIntPush] at hx
      unfold Opcode.isIntConst at hx
      split at hx <;> first
        | exact ⟨rfl, rfl, .inr (.inl ⟨.int, rfl⟩)⟩
        | cases hx
    · obtain rfl : op = .aconstNull := by simpa [isRefPush] using hx
      exact ⟨rfl, rfl, .inr (.inl ⟨.null, rfl⟩)⟩
  | ldc v =>
    cases v <;> first
      | exact ⟨rfl, rfl, .inr (.inl ⟨.int, rfl⟩)⟩
      | simp [isIntPush, isRefPush] at hx
  | field op m =>
    simp only [isIntPush, isRefPush, Bool.false_eq_true, false_or, Bool.and_eq_true, decide_eq_true_eq] at hx
    obtain ⟨rfl, -⟩ := hx
    exact ⟨rfl, rfl, .inr (.inr ⟨m, rfl⟩)⟩
  | _ => simp [isIntPush, isRefPush] at hx

/-- What pushes an int or a reference pushes the same with as much known of the slot that it needs. -/
theorem kindStep_push (hx : x.isIntPush = true ∨ x.isRefPush = true) (h : KindStep first x t t') :
    ∃ κ, t' = ⟨κ :: t.stack, t.locals⟩ ∧
      ∀ stack L, (∀ op j, x = .var op j → t.locals j κ → L j κ) → KindStep first x ⟨stack, L⟩ ⟨κ :: stack, L⟩ := by
  rcases (push_cases hx).2.2 with ⟨op, j, rfl, hop⟩ | hg
  · obtain ⟨κ, hj, hwide, ht'⟩ := (kindStep_load_iff hop).mp h
    exact ⟨κ, ht', fun stack L hL => (kindStep_load_iff hop).mpr ⟨κ, hL op j rfl hj, hwide, rfl⟩⟩
  have hsignature : ∃ u, x.signature? = some ⟨[], some u⟩ := by
    rcases hg with hg | ⟨m, rfl⟩
    · exact hg
    · -- a field without a type cannot be read
      obtain ⟨ks, ks', rest, -, -, htyping⟩ := h
      generalize t.locals = L, t'.locals = L' at htyping
      cases htyping with
      | regular hg =>
        cases hm : ValueType.parse m.desc with
        | ok u => exact ⟨u, by simp [signature?, hm]⟩
        | error e => simp [signature?, hm] at hg
  obtain ⟨u, hg⟩ := hsignature
  obtain ⟨κ, hκ⟩ : ∃ κ, u.kind? = some κ := by
    obtain ⟨ks, ks', rest, -, -, htyping⟩ := h
    obtain ⟨κ, -, -, hκ, -⟩ := List.map_eq_cons_iff.mp (htyping.of_signature hg).2.2.2.symm
    exact ⟨κ, hκ.symm⟩
  have hgives : [u].map ValueType.kind? = [κ].map some := by rw [List.map_singleton, hκ, List.map_singleton]
  exact ⟨κ, (h.regular hg [] [κ] rfl rfl hgives).1, fun stack L _ => kindStep_regular [] [κ] hg rfl hgives stack L⟩

theorem KindStep.falls (h : KindStep first (.call op m itf) t t') : op.falls = true := by
  obtain ⟨ks, ks', rest, -, -, htyping⟩ := h
  generalize t.locals = L, t'.locals = L' at htyping
  cases htyping with
  | regular hg =>
    simp only [signature?] at hg
    split at hg
    · next hop _ => exact hop
    · cases hg

/-- A call takes what its descriptor says. -/
theorem kindStep_call_iff {f : MethodType}
    (hop : op.falls = true) (hf : MethodType.parse m.desc = .ok f) (takes gives : List Kind)
    (htakes : (if op.hasReceiver then .objectClass :: f.params else f.params).map ValueType.kind? = takes.map some)
    (hgives : (if f.result = .void then [] else [f.result]).map ValueType.kind? = gives.map some) :
    KindStep first (.call op m itf) t t' ↔ ∃ rest, t.stack = takes.reverse ++ rest ∧ t' = ⟨gives ++ rest, t.locals⟩ := by
  have hg : (call op m itf).signature? = some ⟨if op.hasReceiver then .objectClass :: f.params else f.params,
      if f.result = .void then none else some f.result⟩ := by simp [signature?, hf, hop]
  refine kindStep_fixed_iff takes gives hg htakes.symm ?_ (.inr rfl)
  rw [← hgives]
  by_cases hvoid : f.result = .void <;> simp [hvoid]

theorem kindStep_accessor (hm : m.desc = ("()I" : Text)) (stack : List Kind)
    (L : LocalKinds) : KindStep first (.ofAccessor m) ⟨.ref :: stack, L⟩ ⟨.int :: stack, L⟩ :=
  (kindStep_call_iff rfl (hm ▸ parse_accessorDesc) [.ref] [.int] rfl rfl).mpr ⟨stack, rfl, rfl⟩

/-- A call that packs takes three ints and leaves a long. -/
theorem kindStep_pack (hcat : c.catalog.Shaped) {e : Entry}
    (he : c.catalog.lookup m = some e) (hpack : e.pack = true) (h : KindStep first (.call .invokestatic m itf) t t') :
    ∃ rest, t.stack = .int :: .int :: .int :: rest ∧ t' = ⟨.long :: rest, t.locals⟩ :=
  (kindStep_call_iff rfl (hcat.pack_desc he hpack ▸ parse_packDesc) [.int, .int, .int] [.long] rfl rfl).mp h

/-- A call with accessors takes a receiver and leaves a long. -/
theorem kindStep_axes (hcat : c.catalog.Shaped) {e : Entry} (he : c.catalog.lookup m = some e)
    (haxes : e.axes.isSome = true) (hop : op.hasReceiver = true) (h : KindStep first (.call op m itf) t t') :
    ∃ rest, t.stack = .ref :: rest ∧ t' = ⟨.long :: rest, t.locals⟩ := by
  obtain ⟨rfl, hmem⟩ := Catalog.lookup_key he
  have hshape := hcat.entries e hmem
  obtain ⟨f, -, hf, -, -, hresult, hparams⟩ := hshape.type
  have hempty := hparams haxes
  obtain ⟨axes, ha⟩ := Option.isSome_iff_exists.mp haxes
  have hlong := hresult (hshape.axes axes ha).1
  refine (kindStep_call_iff h.falls hf [.ref] [.long] ?_ ?_).mp h
  · rw [hop, hempty]
    rfl
  · simp [hlong, ValueType.kind?]

end

/-! ## Comparing -/

/-- Comparing two parts changes nothing that is known. -/
theorem Runs.compareParts {a b : Insn} (ha : c.isOperand a = true) (hb : c.isOperand b = true) (axis : Axis)
    {op : Opcode} (hop : op = .ifIcmpne ∨ op = .ifIcmpeq) {q : InsnId} {stack : List Kind} {L : LocalKinds}
    (hknownA : OperandKnown a L) (hknownB : OperandKnown b L) (hsafe : Safe L) (hgo : Leads q ⟨stack, L⟩)
    (hexit : Exit ⟨stack, L⟩) (n : Nat) :
    KindRuns c Leads Safe Exit
      (numbered n (Pattern.compareParts c a b axis op q)) ⟨stack, L⟩ := by
  have hg : (jump op q).signature? = some ⟨[.int, .int], none⟩ := by rcases hop with rfl | rfl <;> rfl
  have hbranch : KindStep c.slots.isFirst (.jump op q) ⟨.int :: .int :: stack, L⟩ ⟨stack, L⟩ :=
    kindStep_regular [.int, .int] [] hg rfl rfl stack L
  simp only [Pattern.compareParts, numbered_cons, numbered_nil]
  apply Runs.step (kindStep_narrow ha axis (fun j hj => hknownA.part hj axis) stack) (c.targets_narrow a axis) hsafe
  apply Runs.step (kindStep_narrow hb axis (fun j hj => hknownB.part hj axis) _) (c.targets_narrow b axis) hsafe
  refine .line (.refl _) hbranch ?_ hsafe hsafe fun _ => .done hexit
  intro q' hq'
  rw [targets, List.mem_singleton] at hq'
  rw [hq']
  exact hgo

/-- What a window that compares two operands knows, and what it leaves. -/
theorem Runs.of_compare (hpass : Passage Leads Safe Exit) {w : List (InsnId × Insn)} {a b : Insn} {op : Opcode}
    {q : InsnId} (hop : op = .ifne ∨ op = .ifeq) (hw : w.map Prod.snd = [a, b, .plain .lcmp, .jump op q])
    (ha : c.isOperand a = true) (hb : c.isOperand b = true) {t : FrameType}
    (h : KindRuns c Leads Safe Exit w t) :
    OperandKnown a t.locals ∧ OperandKnown b t.locals ∧ Safe t.locals ∧ Leads q t ∧ Exit t := by
  obtain ⟨w₁, t₁, hw₁, hstep₁, -, hsafe, -, hrest₁⟩ := h.next hpass hw
  obtain ⟨hknownA, rfl⟩ := (kindStep_operand_iff ha).mp hstep₁
  obtain ⟨w₂, t₂, hw₂, hstep₂, -, -, -, hrest₂⟩ := (hrest₁ (falls_of_operand ha)).next hpass hw₁
  obtain ⟨hknownB, rfl⟩ := (kindStep_operand_iff hb).mp hstep₂
  obtain ⟨w₃, t₃, hw₃, hstep₃, -, -, -, hrest₃⟩ := (hrest₂ (falls_of_operand hb)).next hpass hw₂
  have hlcmp : (plain .lcmp).signature? = some ⟨[.long, .long], some .int⟩ := rfl
  obtain rfl : t₃ = ⟨.int :: t.stack, t.locals⟩ := (hstep₃.regular hlcmp [.long, .long] [.int] rfl rfl rfl).1
  obtain ⟨w₄, t₄, hw₄, hstep₄, hgo, -, -, hrest₄⟩ := (hrest₃ rfl).next hpass hw₃
  have hjump : (jump op q).signature? = some ⟨[.int], none⟩ := by rcases hop with rfl | rfl <;> rfl
  obtain rfl : t₄ = t := (hstep₄.regular hjump [.int] [] rfl rfl rfl).1
  have hexit := (hrest₄ (by rcases hop with rfl | rfl <;> rfl)).exit hw₄
  exact ⟨hknownA, hknownB, hsafe, hgo q (by simp [targets]), hexit⟩

/-! ## Storing -/

namespace LocalKinds

/-- What is known when the parts before an axis have been stored. -/
def storeBefore (L : LocalKinds) (slot : Int) : Axis → LocalKinds
  | .x => L
  | .y => L.store slot .int
  | .z => (L.store slot .int).store (slot + 1) .int

variable {L : LocalKinds} {slot : Int}

variable {j : Int} {κ : Kind}

/-- A slot is known as long as none of the parts is stored there. -/
theorem storeBefore_of_ne (hj : L j κ) (hκ : κ.isWide = false) (axis : Axis)
    (hne : ∀ k : Nat, k < axis.index → j ≠ slot + k) : L.storeBefore slot axis j κ := by
  have hstore : ∀ {M : LocalKinds} {i : Int}, M j κ → j ≠ i → M.store i .int j κ := by
    intro M i hM hi
    rw [store, if_neg hi]
    exact ⟨hM, fun hwide => Bool.false_ne_true hwide.2, fun hwide => by simp [hκ] at hwide⟩
  cases axis with
  | x => exact hj
  | y => exact hstore hj (by simpa using hne 0 (by decide))
  | z => exact hstore (hstore hj (by simpa using hne 0 (by decide))) (by simpa using hne 1 (by decide))

theorem storeBefore_narrow (axis : Axis) (hj : L (j + axis.index) .int)
    (hapart : j = slot ∨ j + 3 ≤ slot ∨ slot + 3 ≤ j) : L.storeBefore slot axis (j + axis.index) .int := by
  apply storeBefore_of_ne hj rfl
  intro k hk
  have hindex : axis.index < 3 := by cases axis <;> decide
  omega

theorem storeBefore_outside (axis : Axis) (hj : L j κ) (hκ : κ.isWide = false)
    (hout : j < slot ∨ slot + 3 ≤ j) : L.storeBefore slot axis j κ := by
  apply storeBefore_of_ne hj hκ
  intro k hk
  have hindex : axis.index < 3 := by cases axis <;> decide
  omega

/-- What is known both before and after a coordinate is stored is known in between. -/
theorem storeBefore_between (axis : Axis) (hbefore : L j κ) (hafter : L.storeParts slot j κ) :
    L.storeBefore slot axis j κ := by
  rw [storeParts_iff] at hafter
  have hint : Kind.int.isWide = false := rfl
  cases axis with
  | x => exact hbefore
  | y =>
    show store L slot .int j κ
    rw [store]
    grind
  | z =>
    show store (store L slot .int) (slot + 1) .int j κ
    rw [store, store]
    grind

end LocalKinds

section

variable {slot : Int} {L : LocalKinds}

/-- The instructions `part axis` push an int each, also when the parts before it are in their slots. -/
def PushesInts (c : ExpansionContext) (slot : Int) (L : LocalKinds) (part : Axis → List Insn) : Prop :=
  ∀ (axis : Axis) (stack : List Kind) (n : Nat) (Leads : InsnId → FrameType → Prop) (Safe : LocalKinds → Prop)
    (Exit : FrameType → Prop), Safe (L.storeBefore slot axis) → Exit ⟨.int :: stack, L.storeBefore slot axis⟩ →
    KindRuns c Leads Safe Exit (numbered n (part axis))
      ⟨stack, L.storeBefore slot axis⟩

/-- Three ints may be stored one by one where a coordinate is stored. -/
theorem PushesInts.runs {part : Axis → List Insn} (h : PushesInts c slot L part) (hpass : Passage Leads Safe Exit)
    (hslot : 0 ≤ slot) {stack : List Kind} (hbefore : Safe L) (hafter : Safe (L.storeParts slot))
    (hexit : Exit ⟨stack, L.storeParts slot⟩) (n : Nat) :
    KindRuns c Leads Safe Exit (numbered n
      (Axis.all.flatMap fun axis => part axis ++ [.var .istore (slot + axis.index)])) ⟨stack, L⟩ := by
  have hsafe : ∀ axis, Safe (L.storeBefore slot axis) := fun axis =>
    hpass.safe _ _ _ hbefore hafter fun _ _ => LocalKinds.storeBefore_between axis
  have hstep : ∀ (axis : Axis) (k : Nat) (Exit' : FrameType → Prop),
      Safe ((L.storeBefore slot axis).store (slot + axis.index) .int) →
      Exit' ⟨stack, (L.storeBefore slot axis).store (slot + axis.index) .int⟩ →
      KindRuns c Leads Safe Exit'
        (numbered k (part axis ++ [.var .istore (slot + axis.index)])) ⟨stack, L.storeBefore slot axis⟩ := by
    intro axis k Exit' hnext hexit'
    rw [numbered_append]
    apply Runs.append_iff.mpr
    apply h axis stack k _ _ _ (hsafe axis)
    rw [numbered_cons, numbered_nil]
    refine .line (.refl _) (kindStep_storeInt (by omega)) ?_ (hsafe axis) hnext fun _ => .done hexit'
    simp [targets]
  simp only [Axis.all, List.flatMap_cons, List.flatMap_nil, List.append_nil]
  have hfirst : L.storeBefore slot .y = (L.storeBefore slot .x).store (slot + Axis.x.index) .int := by
    simp [LocalKinds.storeBefore, Axis.index]
  rw [numbered_append]
  apply Runs.append_iff.mpr
  apply hstep .x n _ (hfirst ▸ hsafe .y)
  rw [← hfirst, numbered_append]
  apply Runs.append_iff.mpr
  apply hstep .y _ _ (hsafe .z)
  exact hstep .z _ _ hafter hexit

variable {x : Insn}

section

variable {w : List (InsnId × Insn)} {itf : Bool}

variable (hpass : Passage Leads Safe Exit)

include hpass

theorem Runs.operand_parts (hx : c.isOperand x = true) (hw : w.map Prod.snd = [x]) (h : KindRuns c Leads Safe Exit w t)
    (hapart : ∀ j, x = .var .lload j → j = slot ∨ j + 3 ≤ slot ∨ slot + 3 ≤ j) :
    Exit ⟨.long :: t.stack, t.locals⟩ ∧ PushesInts c slot t.locals fun axis => [c.narrow x axis] := by
  obtain ⟨w', t', hnil, hstep, -, -, -, hrest⟩ := h.next hpass hw
  obtain ⟨hknown, rfl⟩ := (kindStep_operand_iff hx).mp hstep
  refine ⟨(hrest (falls_of_operand hx)).exit hnil, ?_⟩
  intro axis stack n Leads Safe Exit hsafe hexit
  rw [numbered_cons, numbered_nil]
  refine Runs.step (kindStep_narrow hx axis ?_ stack) (c.targets_narrow x axis) hsafe (.done hexit)
  intro j hj
  exact LocalKinds.storeBefore_narrow axis (hknown.part hj axis) (hapart j hj)

/-- The parts of a coordinate that is moved. -/
theorem Runs.offset_parts (hcat : c.catalog.Shaped) {r : Insn}
    {o : OffsetCall} (ho : c.catalog.offset = some o) (hx : c.isOperand x = true) (hr : r.isRefPush = true)
    (hw : w.map Prod.snd = [x, r, .call .invokestatic o.method itf])
    (h : KindRuns c Leads Safe Exit w t)
    (hapart : ∀ j, x = .var .lload j → j = slot ∨ j + 3 ≤ slot ∨ slot + 3 ≤ j)
    (hclear : ∀ j, r = .var .aload j → j < slot ∨ slot + 3 ≤ j) :
    Exit ⟨.long :: t.stack, t.locals⟩ ∧ PushesInts c slot t.locals fun axis =>
      [c.narrow x axis, r, .ofAccessor (o.axes.get axis), .plain .iadd] := by
  obtain ⟨w₁, t₁, hw₁, hstep₁, -, -, -, hrest₁⟩ := h.next hpass hw
  obtain ⟨hknown, rfl⟩ := (kindStep_operand_iff hx).mp hstep₁
  obtain ⟨w₂, t₂, hw₂, hstep₂, -, -, -, hrest₂⟩ := (hrest₁ (falls_of_operand hx)).next hpass hw₁
  obtain ⟨κ, rfl, hpush⟩ := kindStep_push (.inr hr) hstep₂
  obtain ⟨w₃, t₃, hw₃, hstep₃, -, -, -, hrest₃⟩ := (hrest₂ (push_cases (.inr hr)).1).next hpass hw₂
  -- the call shows that a reference was pushed
  obtain ⟨f, u, hf, hparams, href, hresult⟩ := (hcat.offset o ho).type
  have htakes : (if Opcode.invokestatic.hasReceiver then .objectClass :: f.params else f.params).map
      ValueType.kind? = [Kind.long, .ref].map some := by
    rw [hparams]
    simpa [Opcode.hasReceiver, ValueType.kind?] using (ValueType.isRef_iff_kind? u).mp href
  have hgives : (if f.result = .void then [] else [f.result]).map ValueType.kind? = [Kind.long].map some := by
    simp [hresult, ValueType.kind?]
  obtain ⟨rest, hstack, rfl⟩ := (kindStep_call_iff rfl hf [.long, .ref] [.long] htakes hgives).mp hstep₃
  obtain ⟨rfl, rfl⟩ : κ = .ref ∧ t.stack = rest := by simpa using hstack
  refine ⟨(hrest₃ rfl).exit hw₃, ?_⟩
  intro axis stack n Leads Safe Exit hsafe hexit
  simp only [numbered_cons, numbered_nil]
  have hiadd : (plain .iadd).signature? = some ⟨[.int, .int], some .int⟩ := rfl
  refine Runs.step (kindStep_narrow hx axis ?_ stack) (c.targets_narrow x axis) hsafe ?_
  · intro j hj
    exact LocalKinds.storeBefore_narrow axis (hknown.part hj axis) (hapart j hj)
  refine Runs.step (hpush (.int :: stack) _ ?_) (push_cases (.inr hr)).2.1 hsafe ?_
  · rintro op j rfl hj
    obtain rfl : op = .aload := by simpa [isRefPush] using hr
    exact LocalKinds.storeBefore_outside axis hj rfl (hclear j rfl)
  apply Runs.step (kindStep_accessor ((hcat.offset o ho).axes axis) _ _) rfl hsafe
  exact Runs.step (kindStep_regular [.int, .int] [.int] hiadd rfl rfl stack _) rfl hsafe (.done hexit)

/-- The parts that accessors give. -/
theorem Runs.accessor_parts (hcat : c.catalog.Shaped) {j : Int} {op : Opcode}
    {m : Member} {e : Entry} {axes : AxisMembers} (he : c.catalog.lookup m = some e)
    (ha : e.axes = some axes) (hop : op.hasReceiver = true) (hw : w.map Prod.snd = [.var .aload j, .call op m itf])
    (h : KindRuns c Leads Safe Exit w t) (hclear : j < slot ∨ slot + 3 ≤ j) :
    Exit ⟨.long :: t.stack, t.locals⟩ ∧ PushesInts c slot t.locals fun axis =>
      [.var .aload j, .ofAccessor (axes.get axis)] := by
  obtain ⟨w₁, t₁, hw₁, hstep₁, -, -, -, hrest₁⟩ := h.next hpass hw
  obtain ⟨κ, hj, -, rfl⟩ := (kindStep_load_iff (.inr rfl)).mp hstep₁
  obtain ⟨w₂, t₂, hw₂, hstep₂, -, -, -, hrest₂⟩ := (hrest₁ rfl).next hpass hw₁
  obtain ⟨rest, hstack, rfl⟩ := kindStep_axes hcat he (by simp [ha]) hop hstep₂
  obtain ⟨rfl, rfl⟩ : κ = .ref ∧ t.stack = rest := by simpa using hstack
  refine ⟨(hrest₂ hstep₂.falls).exit hw₂, ?_⟩
  intro axis stack n Leads Safe Exit hsafe hexit
  simp only [numbered_cons, numbered_nil]
  refine Runs.step ((kindStep_load_iff (.inr rfl)).mpr ⟨.ref, ?_, rfl, rfl⟩) rfl hsafe ?_
  · exact LocalKinds.storeBefore_outside axis hj rfl hclear
  · exact Runs.step (kindStep_accessor (hcat.accessor_desc he ha axis) _ _) rfl hsafe (.done hexit)

/-- The parts that are packed. -/
theorem Runs.pack_parts (hcat : c.catalog.Shaped) {y z : Insn} {m : Member}
    {e : Entry} (he : c.catalog.lookup m = some e) (hp : e.pack = true) (hx : x.isIntPush = true)
    (hy : y.isIntPush = true) (hz : z.isIntPush = true) (hw : w.map Prod.snd = [x, y, z, .call .invokestatic m itf])
    (h : KindRuns c Leads Safe Exit w t)
    (hclear : ∀ j, .var .iload j ∈ [y, z] → j < slot ∨ slot + 3 ≤ j) :
    Exit ⟨.long :: t.stack, t.locals⟩ ∧ PushesInts c slot t.locals fun axis => match axis with
      | .x => [x]
      | .y => [y]
      | .z => [z] := by
  obtain ⟨w₁, t₁, hw₁, hstep₁, -, -, -, hrest₁⟩ := h.next hpass hw
  obtain ⟨κx, rfl, hpushx⟩ := kindStep_push (.inl hx) hstep₁
  obtain ⟨w₂, t₂, hw₂, hstep₂, -, -, -, hrest₂⟩ := (hrest₁ (push_cases (.inl hx)).1).next hpass hw₁
  obtain ⟨κy, rfl, hpushy⟩ := kindStep_push (.inl hy) hstep₂
  obtain ⟨w₃, t₃, hw₃, hstep₃, -, -, -, hrest₃⟩ := (hrest₂ (push_cases (.inl hy)).1).next hpass hw₂
  obtain ⟨κz, rfl, hpushz⟩ := kindStep_push (.inl hz) hstep₃
  obtain ⟨w₄, t₄, hw₄, hstep₄, -, -, -, hrest₄⟩ := (hrest₃ (push_cases (.inl hz)).1).next hpass hw₃
  -- the call shows that all of them pushed ints
  obtain ⟨rest, hstack, rfl⟩ := kindStep_pack hcat he hp hstep₄
  obtain ⟨rfl, rfl, rfl, rfl⟩ : κz = .int ∧ κy = .int ∧ κx = .int ∧ t.stack = rest := by simpa using hstack
  refine ⟨(hrest₄ rfl).exit hw₄, ?_⟩
  have hkept : ∀ axis u, u.isIntPush = true → u ∈ [y, z] → ∀ op j, u = .var op j → t.locals j .int →
      t.locals.storeBefore slot axis j .int := by
    rintro axis u hu hmem op j rfl hj
    obtain rfl : op = .iload := by simpa [isIntPush] using hu
    exact LocalKinds.storeBefore_outside axis hj rfl (hclear j hmem)
  intro axis stack n Leads Safe Exit hsafe hexit
  cases axis with
  | x =>
    rw [numbered_cons, numbered_nil]
    exact Runs.step (hpushx stack _ fun _ _ _ hj => hj) (push_cases (.inl hx)).2.1 hsafe (.done hexit)
  | y =>
    rw [numbered_cons, numbered_nil]
    exact Runs.step (hpushy stack _ (hkept .y y hy (by simp))) (push_cases (.inl hy)).2.1 hsafe (.done hexit)
  | z =>
    rw [numbered_cons, numbered_nil]
    exact Runs.step (hpushz stack _ (hkept .z z hz (by simp))) (push_cases (.inl hz)).2.1 hsafe (.done hexit)

/-- Whatever a pattern stores to an expanded slot is a long, and its parts are ints. -/
theorem Runs.parts {load : List Insn} {part : Axis → List Insn}
    (hstorable : Machine.Storable c E load) (hp : Pattern.Parts c load part) (hcat : c.catalog.Shaped)
    (hc : c.slots = .ofSlots E) (hslot : SlotMap.Placed E .lstore slot) (hfirst : c.slots.isFirst slot = true)
    (hw : w.map Prod.snd = load) (h : KindRuns c Leads Safe Exit w t) :
    Exit ⟨.long :: t.stack, t.locals⟩ ∧ PushesInts c slot t.locals part := by
  rw [hc] at hfirst
  -- a packed load is from the three slots of the store, or from three others
  have hload : ∀ j, .var .lload j ∈ load → c.slots.isFirst j = true → j = slot ∨ j + 3 ≤ slot ∨ slot + 3 ≤ j := by
    intro j hmem hj
    rw [hc] at hj
    exact (hstorable.placed .lload j hmem (by decide) (by decide)).same_or_apart hslot hj hfirst
  have haload : ∀ j, .var .aload j ∈ load → j < slot ∨ slot + 3 ≤ j := by
    intro j hmem
    exact (hstorable.placed .aload j hmem (by decide) (by decide)).clear (by decide) (by decide) slot hfirst
  cases hp with
  | @offset x r op itf o ho hx hr =>
    obtain ⟨j, rfl, hj⟩ := Machine.isPackedLoad_iff.mp hx
    have hop : op = .invokestatic :=
      (hstorable.calls op o.method itf (by simp)).offset (by simp [Catalog.isOffset, ho])
    rw [hop] at hw
    refine h.offset_parts hpass hcat ho (Machine.isOperand_iff.mpr (.inl ⟨j, rfl, hj⟩)) hr hw ?_ ?_
    · rintro _ ⟨⟩
      exact hload j (by simp) hj
    · rintro i rfl
      exact haload i (by simp)
  | @sentinel x hx =>
    refine h.operand_parts hpass (by simp [ExpansionContext.isOperand, hx]) hw ?_
    rintro j rfl
    simp [ExpansionContext.isSentinel] at hx
  | @accessors j op m itf e axes he ha =>
    have hop : op.hasReceiver = true := (hstorable.calls op m itf (by simp)).axes e he (by simp [ha])
    exact h.accessor_parts hpass hcat he ha hop hw (haload j (by simp))
  | @pack x y z m itf e he hpack hx hy hz =>
    refine h.pack_parts hpass hcat he hpack hx hy hz hw ?_
    intro j hj
    refine hstorable.clear j ?_ slot hfirst
    simp only [List.tail_cons, List.mem_cons, List.not_mem_nil, or_false] at hj ⊢
    tauto
  | @copy x hx =>
    obtain ⟨j, rfl, hj⟩ := Machine.isPackedLoad_iff.mp hx
    refine h.operand_parts hpass (Machine.isOperand_iff.mpr (.inl ⟨j, rfl, hj⟩)) hw ?_
    rintro _ ⟨⟩
    exact hload j (by simp) hj

end

end

/-! ## Windows -/

section

variable {R : InsnId → Insn → FrameType → FrameType → Prop} {Leads' : InsnId → FrameType → Prop} {U : TypeTable}

theorem Segment.mono (h : Segment R Leads Safe Exit ls t U)
    (hLeads : ∀ p ∈ ls, ∀ q ∈ p.2.targets, ∀ u, Leads q u → Leads' q u) : Segment R Leads' Safe Exit ls t U := by
  refine ⟨h.enters, ?_⟩
  intro a id x b hsplit u hu
  obtain ⟨u', hrule, hgo, hrest⟩ := h.line a id x b hsplit u hu
  exact ⟨u', hrule, fun q hq => hLeads (id, x) (by simp [hsplit]) q hq u' (hgo q hq), hrest⟩

/-- Lines that branch to their end may do so by a label there. -/
theorem Segment.close {n : InsnId} {e : FrameType}
    (h : Segment R (fun q u => if q = n then u.Refines e else Leads q u) Safe (·.Refines e) ls t U)
    (hn : n ∉ ls.map Prod.fst) (hlabel : R n .label e e) (hsafe : Safe e.locals) (hexit : Exit e) :
    Segment R (fun q u => if q = n then u.Refines e else Leads q u) Safe Exit (ls ++ [(n, .label)]) t
      (fun id => if id = n then some e else U id) := by
  have henters : ∀ a b, ls = a ++ b → ∀ u, U.Enters (·.Refines e) b u →
      TypeTable.Enters (fun id => if id = n then some e else U id) Exit (b ++ [(n, .label)]) u := by
    rintro a b rfl u hu
    cases b with
    | nil => exact ⟨e, if_pos rfl, hu⟩
    | cons p b =>
      obtain ⟨v, hv, hrefines⟩ := hu
      have hp : p.1 ≠ n := by
        rintro rfl
        exact hn (by simp)
      refine ⟨v, ?_, hrefines⟩
      show (if p.1 = n then some e else U p.1) = some v
      rw [if_neg hp, hv]
  refine ⟨henters [] ls rfl t h.enters, ?_⟩
  intro a id x b hsplit u hu
  have hparts : ls ++ [(n, .label)] ++ [] = a ++ (id, x) :: b := by rw [List.append_nil, hsplit]
  rcases split_cases hparts with ⟨d, rfl, rfl⟩ | ⟨d, b', hline, rfl, rfl⟩ | ⟨d, hnil, -⟩
  · have hid : id ≠ n := by
      rintro rfl
      exact hn (by simp)
    rw [if_neg hid] at hu
    obtain ⟨u', hrule, hgo, hbefore, hafter, hfalls⟩ := h.line a id x d rfl u hu
    refine ⟨u', hrule, hgo, hbefore, hafter, fun hfall => ?_⟩
    rw [List.append_nil]
    exact henters (a ++ [(id, x)]) d (by simp) u' (hfalls hfall)
  · obtain ⟨rfl, hp, rfl⟩ : d = [] ∧ (n, label) = (id, x) ∧ b' = [] := by
      cases d with
      | nil => simpa using hline
      | cons p d => simp at hline
    obtain ⟨rfl, rfl⟩ := Prod.mk.inj hp
    rw [if_pos rfl] at hu
    obtain rfl := Option.some.inj hu
    exact ⟨e, hlabel, by simp [targets], hsafe, hsafe, fun _ => hexit⟩
  · simp at hnil

end

namespace Pattern

variable {n : Nat} {w out : List (InsnId × Insn)}

theorem nodup_numbered (n : Nat) (xs : List Insn) : ((numbered n xs).map Prod.fst).Nodup := by
  induction xs generalizing n with
  | nil => simp
  | cons x xs ih =>
    rw [numbered_cons, List.map_cons, List.nodup_cons]
    refine ⟨?_, ih (n + 1)⟩
    intro hmem
    obtain ⟨p, hp, hid⟩ := List.mem_map.mp hmem
    have hle := le_of_mem_numbered hp
    rw [hid] at hle
    omega

variable {q : InsnId} {a b : Insn}

/-- Ids that were given out before are not among numbered lines. -/
theorem not_mem_numbered (hq : q < (n : Int)) (xs : List Insn) : q ∉ (numbered n xs).map Prod.fst := by
  intro hmem
  obtain ⟨p, hp, rfl⟩ := List.mem_map.mp hmem
  exact absurd hq (not_lt.mpr (le_of_mem_numbered hp))

theorem segment_numbered {xs : List Insn} (htargets : ∀ x ∈ xs, ∀ q ∈ x.targets, q < (n : Int))
    (h : KindRuns c Leads Safe Exit (numbered n xs) t) :
    Segments (fun _ => KindStep c.slots.isFirst) Leads Safe Exit (numbered n xs) t := by
  obtain ⟨U, hU⟩ := h.segment (nodup_numbered n xs)
  refine ⟨U, hU.mono ?_⟩
  intro p hp q hq u hu
  have hx : p.2 ∈ xs := by
    rw [← map_snd_numbered n xs]
    exact List.mem_map_of_mem hp
  rwa [if_neg (not_mem_numbered (htargets p.2 hx q hq) xs)]

/-- Comparing two parts can branch to one place. -/
theorem targets_compareParts {op : Opcode} {axis : Axis} :
    ∀ x ∈ compareParts c a b axis op q, ∀ q' ∈ x.targets, q' = q := by
  intro x hx q' hq'
  simp only [compareParts, List.mem_cons, List.not_mem_nil, or_false] at hx
  rcases hx with rfl | rfl | rfl
  · simp [c.targets_narrow] at hq'
  · simp [c.targets_narrow] at hq'
  · simpa [targets] using hq'

/-- Where an axis was taken out, its slot can be loaded. -/
theorem runs_unpack (hpass : Passage Leads Safe Exit) (hcat : c.catalog.Shaped) {slot : Int} {m : Member} {itf : Bool}
    {axis : Axis} (hw : w.map Prod.snd = [.var .lload slot, .call .invokestatic m itf])
    (hs : c.slots.isFirst slot = true) (ha : c.catalog.unpackAxis? m = some axis)
    (h : KindRuns c Leads Safe Exit w t) :
    KindRuns c Leads Safe Exit (numbered n [.var .iload (slot + axis.index)]) t := by
  have hload : c.isOperand (.var .lload slot) = true := Machine.isOperand_iff.mpr (.inl ⟨slot, rfl, hs⟩)
  obtain ⟨w₁, t₁, hw₁, hstep₁, -, hsafe, -, hrest₁⟩ := h.next hpass hw
  obtain ⟨hknown, rfl⟩ := (kindStep_operand_iff hload).mp hstep₁
  obtain ⟨w₂, t₂, hw₂, hstep₂, -, -, -, hrest₂⟩ := (hrest₁ rfl).next hpass hw₁
  obtain ⟨rest, hstack, rfl⟩ := (kindStep_call_iff rfl (hcat.unpackAxis?_desc ha ▸ parse_unpackDesc) [.long] [.int]
    rfl rfl).mp hstep₂
  obtain rfl : t.stack = rest := by simpa using hstack
  rw [numbered_cons, numbered_nil]
  exact Runs.step ((kindStep_load_iff (.inl rfl)).mpr ⟨.int, hknown.part rfl axis, rfl, rfl⟩) rfl hsafe
    (.done ((hrest₂ rfl).exit hw₂))

/-- The tests of the parts can be passed where the test of the whole can. -/
theorem runs_unequal (hpass : Passage Leads Safe Exit)
    (hw : w.map Prod.snd = [a, b, .plain .lcmp, .jump .ifne q]) (ha : c.isOperand a = true)
    (hb : c.isOperand b = true) (h : KindRuns c Leads Safe Exit w t) :
    KindRuns c Leads Safe Exit
      (numbered n (Axis.all.flatMap fun axis => compareParts c a b axis .ifIcmpne q)) t := by
  obtain ⟨hknownA, hknownB, hsafe, hgo, hexit⟩ := h.of_compare hpass (.inl rfl) hw ha hb
  simp only [Axis.all, List.flatMap_cons, List.flatMap_nil, List.append_nil]
  rw [numbered_append]
  apply Runs.append_iff.mpr
  apply Runs.compareParts ha hb .x (.inl rfl) hknownA hknownB hsafe hgo
  rw [numbered_append]
  apply Runs.append_iff.mpr
  apply Runs.compareParts ha hb .y (.inl rfl) hknownA hknownB hsafe hgo
  exact Runs.compareParts ha hb .z (.inl rfl) hknownA hknownB hsafe hgo hexit _

/-- The branches of a test for equality: where two parts differ to the label `n`, and to `q` in the end. -/
theorem targets_equalParts :
    ∀ x ∈ compareParts c a b .x .ifIcmpne n ++ compareParts c a b .y .ifIcmpne n ++ compareParts c a b .z .ifIcmpeq q,
      ∀ q' ∈ x.targets, q' = (n : Int) ∨ q' = q := by
  intro x hx q' hq'
  rcases List.mem_append.mp hx with hx | hx
  · rcases List.mem_append.mp hx with hx | hx
    · exact .inl (targets_compareParts x hx q' hq')
    · exact .inl (targets_compareParts x hx q' hq')
  · exact .inr (targets_compareParts x hx q' hq')

/-- What is known passes through a test for equality unchanged. -/
theorem runs_equalParts (ha : c.isOperand a = true) (hb : c.isOperand b = true)
    (hknownA : OperandKnown a t.locals) (hknownB : OperandKnown b t.locals) (hsafe : Safe t.locals)
    (hend : Leads n t) (hgo : Leads q t) (hexit : Exit t) (k : Nat) :
    KindRuns c Leads Safe Exit (numbered k (compareParts c a b .x .ifIcmpne n ++
      compareParts c a b .y .ifIcmpne n ++ compareParts c a b .z .ifIcmpeq q)) t := by
  rw [numbered_append, numbered_append]
  apply Runs.append_iff.mpr
  apply Runs.append_iff.mpr
  apply Runs.compareParts ha hb .x (.inl rfl) hknownA hknownB hsafe hend
  apply Runs.compareParts ha hb .y (.inl rfl) hknownA hknownB hsafe hend
  exact Runs.compareParts ha hb .z (.inr rfl) hknownA hknownB hsafe hgo hexit _

/-- A test for equality branches to a label at its own end where two parts differ. -/
theorem segment_equal (hpass : Passage Leads Safe Exit)
    (hw : w.map Prod.snd = [a, b, .plain .lcmp, .jump .ifeq q]) (hq : q < (n : Int)) (ha : c.isOperand a = true)
    (hb : c.isOperand b = true) (h : KindRuns c Leads Safe Exit w t)
    (hout : out = numbered (n + 1) (compareParts c a b .x .ifIcmpne n ++
      compareParts c a b .y .ifIcmpne n ++ compareParts c a b .z .ifIcmpeq q) ++ [((n : Int), .label)]) :
    Segments (fun _ => KindStep c.slots.isFirst) Leads Safe Exit out t := by
  obtain ⟨hknownA, hknownB, hsafe, hgo, hexit⟩ := h.of_compare hpass (.inr rfl) hw ha hb
  -- the label is reached with what is known at the start
  let Leads' : InsnId → FrameType → Prop := fun q' u => if q' = (n : Int) then u.Refines t else Leads q' u
  have hend : ∀ u, Leads' n u ↔ u.Refines t := fun u => by simp only [Leads', if_true]
  have hother : ∀ u, Leads' q u ↔ Leads q u := fun u => by simp only [Leads', if_neg (ne_of_lt hq)]
  have hruns : KindRuns c Leads' Safe (·.Refines t) _ t :=
    runs_equalParts ha hb hknownA hknownB hsafe ((hend t).mpr (.refl t)) ((hother t).mpr hgo) (.refl t) (n + 1)
  have htargets := targets_equalParts (c := c) (n := n) (q := q) (a := a) (b := b)
  generalize compareParts c a b .x .ifIcmpne n ++ compareParts c a b .y .ifIcmpne n ++
    compareParts c a b .z .ifIcmpeq q = xs at hout hruns htargets
  obtain ⟨U, hU⟩ := hruns.segment (nodup_numbered _ _)
  have hnext : (n : Int) < ((n + 1 : Nat) : Int) := by exact_mod_cast Nat.lt_succ_self n
  have hfresh : (n : Int) ∉ (numbered (n + 1) xs).map Prod.fst := not_mem_numbered hnext xs
  have hlabel : (label).signature? = some ⟨[], none⟩ := rfl
  have hclosed : Segment (fun _ => KindStep c.slots.isFirst) Leads' Safe Exit out t
      (fun id => if id = (n : Int) then some t else U id) := by
    rw [hout]
    exact hU.close hfresh (kindStep_regular [] [] hlabel rfl rfl t.stack t.locals) hsafe hexit
  refine ⟨_, hclosed.mono ?_⟩
  intro p hp q' hq' u hu
  -- a branch leads to the label or out of the lines
  have htarget : q' = (n : Int) ∨ q' = q := by
    rw [hout] at hp
    rcases List.mem_append.mp hp with hp | hp
    · apply htargets p.2 _ q' hq'
      rw [← map_snd_numbered (n + 1) xs]
      exact List.mem_map_of_mem hp
    · rw [List.mem_singleton.mp hp] at hq'
      simp [targets] at hq'
  rcases htarget with rfl | rfl
  · have hmem : (n : Int) ∈ out.map Prod.fst := by simp [hout]
    rw [if_pos hmem]
    exact ⟨t, if_pos rfl, (hend u).mp hu⟩
  · have hnot : q' ∉ out.map Prod.fst := by
      rw [hout, List.map_append, List.mem_append]
      rintro (hmem | hmem)
      · exact not_mem_numbered (lt_trans hq hnext) xs hmem
      · exact ne_of_lt hq (by simpa using hmem)
    rw [if_neg hnot]
    exact (hother u).mp hu

theorem targets_part {load : List Insn} {part : Axis → List Insn} (hp : Parts c load part) (axis : Axis) :
    ∀ x ∈ part axis, x.targets = [] := by
  intro x hpart
  cases hp.partInsn axis x hpart with
  | narrow _ => exact c.targets_narrow _ axis
  | push _ hx => exact (push_cases hx).2.1
  | _ => rfl

/-- Where a coordinate was stored, its parts can be. -/
theorem runs_store (hpass : Passage Leads Safe Exit) (hcat : c.catalog.Shaped) (hc : c.slots = .ofSlots E)
    {load : List Insn} {part : Axis → List Insn} {slot : Int}
    (hstorable : Machine.Storable c E (load ++ [.var .lstore slot]))
    (hw : w.map Prod.snd = load ++ [.var .lstore slot]) (hp : Parts c load part)
    (hs : c.slots.isFirst slot = true) (h : KindRuns c Leads Safe Exit w t) :
    KindRuns c Leads Safe Exit (numbered n
      (Axis.all.flatMap fun axis => part axis ++ [.var .istore (slot + axis.index)])) t := by
  obtain ⟨ws, ks, rfl, hws, hks⟩ := List.map_eq_append_iff.mp hw
  obtain ⟨id, l, rfl, hnil⟩ := Machine.exists_line hks
  have hload : load ≠ [] := by cases hp <;> simp
  have hslot : SlotMap.Placed E .lstore slot := hstorable.placed .lstore slot (by simp) (by decide) (by decide)
  have hpass' : Passage Leads Safe (KindRuns c Leads Safe Exit ((id, .var .lstore slot) :: l)) :=
    ⟨hpass.go, hpass.safe, fun t u ht hu => hu.of_refines hpass ht⟩
  obtain ⟨hstore, hints⟩ := (Runs.append_iff.mp h).parts hpass' (hstorable.of_append hload) hp hcat hc hslot hs hws
  obtain ⟨t', hstep, -, hbefore, hafter, hrest⟩ := hstore.head hpass
  obtain ⟨hnonneg, κ, rest, -, hstack, rfl⟩ := (kindStep_packedStore_iff hs).mp hstep
  obtain rfl : t.stack = rest := (List.cons.inj hstack).2
  exact hints.runs hpass hnonneg hbefore hafter ((hrest rfl).exit hnil) n

/-- What passes through a window passes through what a pattern puts in its place. -/
theorem Rewrites.segment (hr : Rewrites c n w out) (hfit : Machine.Fit c E n (w.map Prod.snd))
    (hcat : c.catalog.Shaped) (hc : c.slots = .ofSlots E) (hpass : Passage Leads Safe Exit)
    (h : KindRuns c Leads Safe Exit w t) : Segments (fun _ => KindStep c.slots.isFirst) Leads Safe Exit out t := by
  cases hr with
  | @unpack slot op m itf axis hw hs ha =>
    have hop : op = .invokestatic := (hfit.calls op m itf (by simp [hw])).unpack (by simp [ha])
    rw [hop] at hw
    exact segment_numbered (by simp [targets]) (runs_unpack hpass hcat hw hs ha h)
  | @unequal a b q hw ha hb _ =>
    refine segment_numbered ?_ (runs_unequal hpass hw ha hb h)
    intro x hx q' hq'
    obtain ⟨axis, -, hx⟩ := List.mem_flatMap.mp hx
    rw [targets_compareParts x hx q' hq']
    exact hfit.targets .ifne q (by simp [hw])
  | @equal a b q hw ha hb _ =>
    exact segment_equal hpass hw (hfit.targets .ifeq q (by simp [hw])) ha hb h rfl
  | @store load part slot hw hp hs =>
    have hstorable : Machine.Storable c E (load ++ [.var .lstore slot]) := hw ▸ hfit.toStorable
    refine segment_numbered ?_ (runs_store hpass hcat hc hstorable hw hp hs h)
    intro x hx q hq
    obtain ⟨axis, -, hx⟩ := List.mem_flatMap.mp hx
    rcases List.mem_append.mp hx with hx | hx
    · simp [targets_part hp axis x hx] at hq
    · rw [List.mem_singleton.mp hx] at hq
      simp [targets] at hq

end Pattern

/-! ## Scans -/

section

variable {R R' : InsnId → Insn → FrameType → FrameType → Prop}

theorem Runs.of_rules (h : Runs R Leads Safe Exit ls t) (hR : ∀ p ∈ ls, ∀ u u', R p.1 p.2 u u' → R' p.1 p.2 u u') :
    Runs R' Leads Safe Exit ls t := by
  induction h with
  | done h => exact .done h
  | line hrefines hrule hgo hbefore hafter _ ih =>
    exact .line hrefines (hR _ List.mem_cons_self _ _ hrule) hgo hbefore hafter fun hfalls =>
      ih hfalls fun p hp => hR p (List.mem_cons_of_mem _ hp)

theorem Segment.of_rules {U : TypeTable} (h : Segment R Leads Safe Exit ls t U)
    (hR : ∀ p ∈ ls, ∀ u u', R p.1 p.2 u u' → R' p.1 p.2 u u') : Segment R' Leads Safe Exit ls t U := by
  refine ⟨h.enters, ?_⟩
  intro a id x b hsplit u hu
  obtain ⟨u', hrule, hrest⟩ := h.line a id x b hsplit u hu
  exact ⟨u', hR (id, x) (by simp [hsplit]) u u' hrule, hrest⟩

end

section

variable {D : InsnId → Role} {hs : List Handler} {T : TypeTable}

variable {pre w out post : List (InsnId × Insn)} {i : Nat}

/-- Replacing a window keeps a code typed, if its lines have no roles to play. -/
theorem Typed.rewrites {n : Nat} (h : Typed (fun id => RoleStep c.slots.isFirst (D id)) hs (pre ++ w ++ post) T)
    (hlabels : Labelled hs (pre ++ w ++ post)) (hr : Pattern.Rewrites c n w out)
    (hfit : Machine.Fit c E n (w.map Prod.snd)) (hcat : c.catalog.Shaped) (hc : c.slots = .ofSlots E)
    (hold : ((pre ++ w ++ post).map Prod.fst).Nodup) (hnew : ((pre ++ out ++ post).map Prod.fst).Nodup)
    (hw : ∀ p ∈ w, D p.1 = .plain) (hout : ∀ p ∈ out, D p.1 = .plain) :
    ∃ T', Typed (fun id => RoleStep c.slots.isFirst (D id)) hs (pre ++ out ++ post) T' ∧
      Labelled hs (pre ++ out ++ post) ∧
      ∀ t, T.Continues (pre ++ w ++ post) t → T'.Continues (pre ++ out ++ post) t := by
  apply h.replace_labelled hlabels hr.ne_nil _ hold hnew _ fun _ _ _ _ hrule => hrule
  · intro t hruns
    have hplain : KindRuns c T.Admits (T.Guards hs pre post) (T.Continues post) w t := by
      refine hruns.of_rules fun p hp u u' hrule => ?_
      rwa [hw p hp] at hrule
    obtain ⟨U, hU⟩ := hr.segment hfit hcat hc (T.passage hs pre post) hplain
    refine ⟨U, hU.of_rules fun p hp u u' hrule => ?_⟩
    rwa [hout p hp]
  · intro p hp hlabel
    have hnot := hr.not_label p hp
    rw [hlabel] at hnot
    cases hnot
  · intro p hp q hq
    have hkept : ∀ x ∈ w.map Prod.snd, q ∈ x.targets → (q, .label) ∈ pre ++ w ++ post := by
      intro x hx hq
      obtain ⟨p', hp', rfl⟩ := List.mem_map.mp hx
      exact hlabels q (.inl ⟨p', by simp [hp'], hq⟩)
    have hproduced := Machine.produced_of_rewrites hr p.2 (List.mem_map_of_mem hp)
    generalize p.2 = x at hproduced hq
    cases hproduced with
    | kept hx => exact .inr (hkept x hx hq)
    | test _ hgoal =>
      obtain rfl : q = _ := by simpa [targets] using hq
      rcases hgoal with hgoal | ⟨op, hgoal⟩
      · exact .inl hgoal
      · exact .inr (hkept _ hgoal (by simp [targets]))
    | _ => simp [targets, ofAccessor] at hq

theorem Pattern.Rewrites.out_ne_nil {n : Nat} (h : Rewrites c n w out) : out ≠ [] := by
  cases h with
  | unpack => simp [numbered_cons]
  | unequal => simp [Axis.all, compareParts, numbered_cons]
  | equal => simp
  | store => simp [Axis.all, numbered_append, numbered_cons]

/-- Lines have been taken out of a code, and what was put in has new ids. -/
structure Code.Renews (code d : Code) : Prop where
  linked : d.WellLinked
  size : code.nodes.size ≤ d.nodes.size
  lines : ∀ p ∈ d.listing, p ∈ code.listing ∨ (code.nodes.size : Int) ≤ p.1

namespace Code.Renews

variable {code d d' : Code}

theorem refl (h : code.WellLinked) : code.Renews code := ⟨h, le_refl _, fun _ hp => .inl hp⟩

theorem trans (h : code.Renews d) (h' : d.Renews d') : code.Renews d' := by
  refine ⟨h'.linked, le_trans h.size h'.size, fun p hp => ?_⟩
  rcases h'.lines p hp with hp | hp
  · exact h.lines p hp
  · exact .inr (le_trans (by exact_mod_cast h.size) hp)

theorem ids (h : code.Renews d) {id : InsnId} (hid : id ∈ d.listing.map Prod.fst) :
    id ∈ code.listing.map Prod.fst ∨ (code.nodes.size : Int) ≤ id := by
  obtain ⟨p, hp, rfl⟩ := List.mem_map.mp hid
  exact (h.lines p hp).imp_left List.mem_map_of_mem

end Code.Renews

/-- What one replacement makes of the lines. -/
theorem ScanReady.renews {code code' : Code} {j : Nat}
    (hready : ScanReady c E code' j) (hlisting : code.listing = pre ++ w ++ post)
    (hlisting' : code'.listing = pre ++ out ++ post) (hr : Pattern.Rewrites c code.nodes.size w out) :
    code.Renews code' := by
  refine ⟨hready.linked, ?_, ?_⟩
  · obtain ⟨p, rest, rfl⟩ := List.exists_cons_of_ne_nil hr.out_ne_nil
    have hle := hr.fresh p (by simp)
    have hmem : p.1 ∈ code'.listing.map Prod.fst := by simp [hlisting']
    have hlt := (hready.linked.id_lt hmem).2
    exact_mod_cast (lt_of_le_of_lt hle hlt).le
  · intro p hp
    simp only [hlisting', List.mem_append] at hp
    rcases hp with (hp | hp) | hp
    · exact .inl (by simp [hlisting, hp])
    · exact .inr (hr.fresh p hp)
    · exact .inl (by simp [hlisting, hp])

/-- The ids of a window are not those of the code after the replacement. -/
theorem ScanReady.not_mem_of_removed {code code' : Code}
    (hready : ScanReady c E code i) (hlisting : code.listing = pre ++ w ++ post)
    (hlisting' : code'.listing = pre ++ out ++ post) (hr : Pattern.Rewrites c code.nodes.size w out) :
    ∀ p ∈ w, p.1 ∉ code'.listing.map Prod.fst ∧ p.1 < (code.nodes.size : Int) := by
  intro p hp
  have hmem : p.1 ∈ code.listing.map Prod.fst := List.mem_map_of_mem (by simp [hlisting, hp])
  have hlt := (hready.linked.id_lt hmem).2
  have hnodup := hready.linked.nodup
  refine ⟨?_, hlt⟩
  intro hin
  rw [hlisting, List.map_append, List.map_append, List.nodup_append, List.nodup_append] at hnodup
  rw [hlisting', List.map_append, List.map_append, List.mem_append, List.mem_append] at hin
  have hpw : p.1 ∈ w.map Prod.fst := List.mem_map_of_mem hp
  rcases hin with (hin | hin) | hin
  · exact hnodup.1.2.2 p.1 hin p.1 hpw rfl
  · obtain ⟨p', hp', hid⟩ := List.mem_map.mp hin
    have hle := hr.fresh p' hp'
    rw [hid] at hle
    exact absurd hlt (not_lt.mpr hle)
  · exact hnodup.2.2 p.1 (List.mem_append_right _ hpw) p.1 hin rfl

/-- A scan brings no line back that has been taken out. -/
theorem PatternRun.scan_renews (hcat : c.catalog.Shaped) (fuel : Nat) {r : PatternRun}
    (hready : ScanReady c E r.code i) : r.code.Renews (scan c fuel i r).code := by
  induction fuel generalizing i r with
  | zero => exact .refl hready.linked
  | succ fuel ih =>
    rw [scan]
    rcases hnext : Pattern.applyNext c r.code i (r.code.listing.drop i) with e | _ | ⟨j, p, next⟩
    · exact .refl hready.linked
    · exact .refl hready.linked
    · obtain ⟨pre, w, out, post, hlisting, hlisting', -, hr, -, hready'⟩ := hready.step hcat hnext
      exact (hready'.renews hlisting hlisting' hr).trans
        (@ih j { r with code := next, applied := p :: r.applied } hready')

/-- A scan keeps a code typed. Only lines that are still there after it may have roles. -/
theorem Typed.scan (hcat : c.catalog.Shaped) (hc : c.slots = .ofSlots E) (fuel : Nat) {r : PatternRun}
    (hready : ScanReady c E r.code i) (h : Typed (fun id => RoleStep c.slots.isFirst (D id)) hs r.code.listing T)
    (hlabels : Labelled hs r.code.listing) (hD : ∀ id, D id = .plain ∨
      id ∈ (PatternRun.scan c fuel i r).code.listing.map Prod.fst ∧ id < (r.code.nodes.size : Int)) :
    ∃ T', Typed (fun id => RoleStep c.slots.isFirst (D id)) hs (PatternRun.scan c fuel i r).code.listing T' ∧
      Labelled hs (PatternRun.scan c fuel i r).code.listing ∧
      ∀ t, T.Continues r.code.listing t → T'.Continues (PatternRun.scan c fuel i r).code.listing t := by
  induction fuel generalizing i r T with
  | zero => exact ⟨T, h, hlabels, fun _ ht => ht⟩
  | succ fuel ih =>
    rw [PatternRun.scan] at hD ⊢
    rcases hnext : Pattern.applyNext c r.code i (r.code.listing.drop i) with e | _ | ⟨j, p, next⟩
    · exact ⟨T, h, hlabels, fun _ ht => ht⟩
    · exact ⟨T, h, hlabels, fun _ ht => ht⟩
    · simp only [hnext] at hD ⊢
      obtain ⟨pre, w, out, post, hlisting, hlisting', -, hr, hfit, hready'⟩ := hready.step hcat hnext
      have hsize := (hready'.renews hlisting hlisting' hr).size
      have hlater := PatternRun.scan_renews hcat fuel (r := { r with code := next, applied := p :: r.applied }) hready'
      have hold := hready.linked.nodup
      have hnew := hready'.linked.nodup
      -- what has a role is there in the end, so it is not taken out now
      have hkept : ∀ p' ∈ w, D p'.1 = .plain := by
        intro p' hp'
        obtain ⟨hgone, hlt⟩ := hready.not_mem_of_removed hlisting hlisting' hr p' hp'
        rcases hD p'.1 with hplain | ⟨hid, -⟩
        · exact hplain
        · rcases hlater.ids hid with hin | hge
          · exact absurd hin hgone
          · exact absurd (lt_of_lt_of_le hlt (by exact_mod_cast hsize)) (not_lt.mpr hge)
      have hfresh : ∀ p' ∈ out, D p'.1 = .plain := by
        intro p' hp'
        rcases hD p'.1 with hplain | ⟨-, hlt⟩
        · exact hplain
        · exact absurd hlt (not_lt.mpr (hr.fresh p' hp'))
      rw [hlisting] at h hlabels hold
      rw [hlisting'] at hnew
      obtain ⟨T₁, hT₁, hlabels₁, hcontinues₁⟩ :=
        h.rewrites hlabels hr hfit hcat hc hold hnew hkept hfresh
      rw [← hlisting'] at hT₁ hlabels₁ hcontinues₁
      have hD' : ∀ id, D id = .plain ∨ id ∈ (PatternRun.scan c fuel j
          { r with code := next, applied := p :: r.applied }).code.listing.map Prod.fst ∧
            id < (next.nodes.size : Int) := by
        intro id
        rcases hD id with hplain | ⟨hid, hlt⟩
        · exact .inl hplain
        · exact .inr ⟨hid, lt_of_lt_of_le hlt (by exact_mod_cast hsize)⟩
      obtain ⟨T₂, hT₂, hlabels₂, hcontinues₂⟩ :=
        @ih T₁ j { r with code := next, applied := p :: r.applied } hready' hT₁ hlabels₁ hD'
      refine ⟨T₂, hT₂, hlabels₂, fun t ht => hcontinues₂ t (hcontinues₁ t ?_)⟩
      rwa [hlisting] at ht

end

end CoordSplit
