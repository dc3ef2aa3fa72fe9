import CoordSplit.Proofs.FailureIsolation
import CoordSplit.Proofs.PatternMeaning

/-!
# Producers that are shared

The arguments of a call are checked one by one before any of them is split, and an instruction that produced two
of them is changed twice. The first change leaves something else in its place: a load of a part, the call of an
accessor, or nothing. So the second change may find nothing that it can change, and that is a fault.

After a successful analysis this is the only fault there is: a transformation faults iff it comes to a call whose
checks are passed and one of whose producers is met more often than it can be changed
(`Method.transformSteps_faults_iff`). A producer is still what was checked iff it has not been changed for an
argument before.
-/

set_option autoImplicit false

namespace CoordSplit

open Code ExpansionContext Outcome

/-! ## What edits leave of the other instructions -/

namespace Code

/-- The instruction of an id, and whether it was removed. -/
def state? (c : Code) (id : InsnId) : Option (Insn × Bool) := (c.node? id).map fun n => (n.insn, n.removed)

variable {c d : Code} {id : InsnId} {x : Insn} {removed : Bool}

theorem get?_of_state? (h : c.state? id = some (x, removed)) : c.get? id = some x := by
  obtain ⟨n, hn, hstate⟩ := Option.map_eq_some_iff.mp h
  rw [get?, hn, ← (Prod.mk.inj hstate).1]
  rfl

theorem isLive_of_state? (h : c.state? id = some (x, removed)) : c.isLive id = !removed := by
  obtain ⟨n, hn, hstate⟩ := Option.map_eq_some_iff.mp h
  rw [isLive, hn, ← (Prod.mk.inj hstate).2]

theorem state?_of_isLive (hlive : c.isLive id = true) (hx : c.get? id = some x) :
    c.state? id = some (x, false) := by
  obtain ⟨n, hn, rfl⟩ := Option.map_eq_some_iff.mp hx
  have hremoved : n.removed = false := by simpa [isLive, hn] using hlive
  rw [state?, hn, ← hremoved]
  rfl

theorem lt_size_of_state? {s : Insn × Bool} (h : c.state? id = some s) : (id : Int) < c.nodes.size := by
  obtain ⟨n, hn, -⟩ := Option.map_eq_some_iff.mp h
  exact (lt_size_of_node? hn).2

theorem state?_modify {f : Node → Node} (hf : ∀ n, (f n).insn = n.insn ∧ (f n).removed = n.removed) (i : InsnId) :
    (c.modify id f).state? i = c.state? i := by
  rw [state?, state?, node?_modify]
  split
  · rw [Option.map_map]
    congr 1
    funext n
    rw [Function.comp_apply, (hf n).1, (hf n).2]
  · rfl

/-- An edit at one place leaves all other instructions as they are. -/
structure EditsAt (c d : Code) (id : InsnId) : Prop where
  size : c.nodes.size ≤ d.nodes.size
  others : ∀ i, i ≠ id → (i : Int) < c.nodes.size → d.state? i = c.state? i

theorem state?_link (prev fresh next i : InsnId) : (c.link prev fresh next).state? i = c.state? i := by
  have hnode : (c.link prev fresh next).state? i =
      (((c.modify fresh fun n => { n with prev := prev, next := next }).modify prev
        fun n => { n with next := fresh }).modify next fun n => { n with prev := fresh }).state? i := by
    rw [state?, state?, node?_link]
  rw [hnode, state?_modify, state?_modify, state?_modify] <;> exact fun _ => ⟨rfl, rfl⟩

/-- Inserting changes no line that was there. -/
theorem state?_insertBetween (prev next : InsnId) (xs : List Insn) :
    c.nodes.size ≤ (c.insertBetween prev next xs).1.nodes.size ∧
      ∀ i : InsnId, (i : Int) < c.nodes.size → (c.insertBetween prev next xs).1.state? i = c.state? i := by
  induction xs generalizing c prev with
  | nil => exact ⟨le_refl _, fun _ _ => rfl⟩
  | cons x xs ih =>
    obtain ⟨hsize, hstate⟩ := @ih ((c.alloc x).1.link prev c.nodes.size next) c.nodes.size
    rw [size_nodes_link_alloc] at hsize
    simp only [size_nodes_link_alloc] at hstate
    refine ⟨le_trans (Nat.le_succ _) hsize, fun i hi => ?_⟩
    have hne : i ≠ (c.nodes.size : Int) := ne_of_lt hi
    calc (c.insertBetween prev next (x :: xs)).1.state? i
        = ((c.alloc x).1.link prev c.nodes.size next).state? i := hstate i (lt_trans hi (by simp))
      _ = (c.alloc x).1.state? i := state?_link _ _ _ _
      _ = c.state? i := by rw [state?, state?, node?_alloc, if_neg hne]

theorem state?_set (h : c.state? id = some (x, removed)) (y : Insn) :
    ∃ d, c.set id y = .ok d ∧ d.state? id = some (y, removed) ∧ c.EditsAt d id := by
  obtain ⟨n, hn, hstate⟩ := Option.map_eq_some_iff.mp h
  refine ⟨c.modify id fun n => { n with insn := y }, by rw [set, hn], ?_, ?_, ?_⟩
  · rw [state?, node?_modify, if_pos rfl, hn, ← (Prod.mk.inj hstate).2]
    rfl
  · cases id <;> simp [modify]
  · intro i hi _
    rw [state?, state?, node?_modify, if_neg hi]

theorem state?_insertBefore (h : c.state? id = some (x, removed)) (xs : List Insn) :
    ∃ d fresh, c.insertBefore id xs = (d, .ok fresh) ∧ c.nodes.size ≤ d.nodes.size ∧
      ∀ i : InsnId, (i : Int) < c.nodes.size → d.state? i = c.state? i := by
  obtain ⟨n, hn, -⟩ := Option.map_eq_some_iff.mp h
  have hne : id ≠ .none := by
    rintro rfl
    cases hn
  refine ⟨(c.insertBetween n.prev id xs).1, (c.insertBetween n.prev id xs).2, ?_, state?_insertBetween n.prev id xs⟩
  simp only [insertBefore, if_neg hne, hn]

/-- Removing a line changes only its state. -/
theorem state?_remove (h : c.state? id = some (x, false)) (hx : x.isLabel = false) :
    ∃ d, c.remove id = .ok d ∧ d.state? id = some (x, true) ∧ c.EditsAt d id := by
  obtain ⟨n, hn, hstate⟩ := Option.map_eq_some_iff.mp h
  obtain ⟨rfl, hlive⟩ := Prod.mk.inj hstate
  obtain ⟨d, hd, hnode, -, -, hsize⟩ := remove_eq hn hlive hx
  have hmarked : ∀ i, d.state? i = ((c.modify id fun m => { m with removed := true }).node? i).map
      fun m => (m.insn, m.removed) := by
    intro i
    rw [state?, hnode, node?_modify, node?_modify, node?_modify, node?_modify]
    split_ifs <;> simp [Option.map_map, Function.comp_def]
  refine ⟨d, hd, ?_, hsize.1.ge, ?_⟩
  · rw [hmarked, node?_modify, if_pos rfl, hn]
    rfl
  · intro i hi _
    rw [hmarked, node?_modify, if_neg hi, state?]

end Code

namespace ExpansionContext

variable {c : ExpansionContext} {part : Option Axis} {code : Code} {id : InsnId} {x : Insn} {removed : Bool}

theorem becomes_ok (h : code.state? id = some (x, removed)) (before : List Insn) (last : Insn) :
    ∃ d, becomes code id before last = .ok d ∧ d.state? id = some (last, removed) ∧ code.EditsAt d id := by
  obtain ⟨d, fresh, hinsert, hsize, hstate⟩ := state?_insertBefore h before
  have hid : d.state? id = some (x, removed) := by rw [hstate id (lt_size_of_state? h), h]
  obtain ⟨d', hset, hlast, hedit⟩ := state?_set hid last
  refine ⟨d', ?_, hlast, le_trans hsize hedit.size, ?_⟩
  · rw [becomes, hinsert]
    simp only [ofFault, bind, Except.bind, hset]
  · intro i hi hlt
    rw [hedit.others i hi (lt_of_lt_of_le hlt (by exact_mod_cast hsize)), hstate i hlt]

/-! ## Changing a producer -/

/-- The entry of a call that the catalog lists. -/
def listed? (c : ExpansionContext) : Insn → Option Entry
  | .call _ m _ => c.catalog.lookup m
  | _ => none

/-- Whether an instruction is a call that packs three ints. -/
def isPackCall (c : ExpansionContext) (x : Insn) : Bool := (c.listed? x).any Entry.pack

/-- Whether an instruction can be changed to push three parts at all. -/
def isSplittable (c : ExpansionContext) (x : Insn) : Bool := c.isOperand x || (c.listed? x).isSome

/-- What is left in the place of an instruction that was changed to push three parts. A call that packs them is
removed, and is still there under its id. -/
def remainder (c : ExpansionContext) (x : Insn) : Insn :=
  if c.isOperand x then c.narrow x .z
  else match c.listed? x with
    | some e => if e.pack then x else .ofAccessor (e.axisMember .z)
    | none => x

/-- What an instruction is after it was changed a number of times, and whether it is removed by then. -/
def changed (c : ExpansionContext) (x : Insn) : Nat → Insn × Bool
  | 0 => (x, false)
  | k + 1 => (c.remainder (c.changed x k).1, c.isPackCall (c.changed x k).1)

/-- How often a producer can be changed. An accessor takes the place of a call with accessors, and can be changed
in turn if the catalog lists it. -/
def bears (c : ExpansionContext) (x : Insn) : Nat :=
  if c.isPackCall x = false ∧ (c.listed? (c.remainder x)).isSome then 2 else 1

variable {e : Entry} {k : Nat}

theorem not_isOperand_of_listed (h : c.listed? x = some e) : c.isOperand x = false := by
  cases x <;> first
    | rfl
    | cases h

theorem loose_of_listed (h : c.listed? x = some e) : x.Loose := by
  cases x <;> first
    | exact ⟨rfl, rfl⟩
    | cases h

theorem isPackCall_of_listed (h : c.listed? x = some e) : c.isPackCall x = e.pack := by
  rw [isPackCall, h, Option.any_some]

theorem isPackCall_of_isOperand (h : c.isOperand x = true) : c.isPackCall x = false := by
  rw [isPackCall]
  cases hx : c.listed? x with
  | none => rfl
  | some e =>
    rw [not_isOperand_of_listed hx] at h
    cases h

theorem ofFault_get (hx : code.get? id = some x) :
    (ofFault (code.get id) : Outcome ConversionError Insn) = .ok x := by
  simp only [Code.get, hx, ofFault]

/-- A call that the catalog lists is changed by its entry. -/
theorem convertProducer_listed (hx : code.get? id = some x) (he : c.listed? x = some e) :
    c.convertProducer part code id =
      if e.pack then
        match part with
        | some axis => becomes code id ((keepOne axis).1.map .plain) (.plain (keepOne axis).2)
        | none => Outcome.ofExcept .remove (code.remove id)
      else
        match part with
        | some axis => ofFault (code.set id (.ofAccessor (e.axisMember axis)))
        | none => becomes code id (keepReceiver e .x ++ keepReceiver e .y) (.ofAccessor (e.axisMember .z)) := by
  have hoperand := not_isOperand_of_listed he
  cases x with
  | call op m itf =>
    have he' : c.catalog.lookup m = some e := he
    rw [convertProducer.eq_def, ofFault_get hx]
    cases part <;> simp only [bind, Except.bind, hoperand, he', Bool.false_eq_true, if_false]
  | _ => cases he

theorem convertProducer_operand (hx : code.get? id = some x) (hoperand : c.isOperand x = true) :
    c.convertProducer part code id =
      match part with
      | some axis => ofFault (code.set id (c.narrow x axis))
      | none => becomes code id [c.narrow x .x, c.narrow x .y] (c.narrow x .z) := by
  rw [convertProducer.eq_def, ofFault_get hx]
  cases part <;> simp only [bind, Except.bind, hoperand, if_true]

/-- What cannot be changed is a fault. -/
theorem convertProducer_unable (hx : code.get? id = some x) (hunable : c.isSplittable x = false) :
    c.convertProducer part code id = .error (.fault .form) := by
  obtain ⟨hoperand, hlisted⟩ : c.isOperand x = false ∧ c.listed? x = none := by
    simpa [isSplittable] using hunable
  rw [convertProducer.eq_def, ofFault_get hx]
  cases x with
  | call op m itf =>
    have hlisted' : c.catalog.lookup m = none := hlisted
    simp only [bind, Except.bind, hoperand, hlisted', Bool.false_eq_true, if_false]
  | _ => simp only [bind, Except.bind, hoperand, Bool.false_eq_true, if_false]

/-- A call that packs three ints cannot be taken away twice. -/
theorem convertProducer_removed (h : code.state? id = some (x, true)) (hpack : c.isPackCall x = true) :
    c.convertProducer none code id = .error (.error (.remove (.dead id))) := by
  obtain ⟨e, he, hep⟩ := (Option.any_eq_true _ _).mp hpack
  obtain ⟨n, hn, hstate⟩ := Option.map_eq_some_iff.mp h
  have hremoved : n.removed = true := (Prod.mk.inj hstate).2
  rw [convertProducer_listed (get?_of_state? h) he, if_pos hep]
  simp only [remove, hn, hremoved, if_true, Outcome.ofExcept]

/-- A producer that is still there can be changed, and nothing else changes. -/
theorem convertProducer_ok (part : Option Axis) (h : code.state? id = some (x, false))
    (hable : c.isSplittable x = true) :
    ∃ d, c.convertProducer part code id = .ok d ∧ code.EditsAt d id ∧
      (part = none → d.state? id = some (c.remainder x, c.isPackCall x)) := by
  have hx := get?_of_state? h
  by_cases hoperand : c.isOperand x = true
  · have hpack := isPackCall_of_isOperand hoperand
    rw [convertProducer_operand hx hoperand, remainder, if_pos hoperand, hpack]
    cases part with
    | some axis =>
      obtain ⟨d, hd, -, hedit⟩ := state?_set h (c.narrow x axis)
      exact ⟨d, by simp only [hd, ofFault], hedit, by simp⟩
    | none =>
      obtain ⟨d, hd, hstate, hedit⟩ := becomes_ok h [c.narrow x .x, c.narrow x .y] (c.narrow x .z)
      exact ⟨d, hd, hedit, fun _ => hstate⟩
  · obtain ⟨e, he⟩ : ∃ e, c.listed? x = some e := by
      simpa [isSplittable, hoperand, Option.isSome_iff_exists] using hable
    rw [convertProducer_listed hx he, remainder, if_neg hoperand, he, isPackCall_of_listed he]
    cases hpack : e.pack with
    | true =>
      cases part with
      | some axis =>
        obtain ⟨d, hd, -, hedit⟩ := becomes_ok h ((keepOne axis).1.map .plain) (.plain (keepOne axis).2)
        exact ⟨d, hd, hedit, by simp⟩
      | none =>
        obtain ⟨d, hd, hstate, hedit⟩ := state?_remove h (loose_of_listed he).1
        exact ⟨d, by simp only [if_true, hd, Outcome.ofExcept], hedit, fun _ => by simpa [hpack] using hstate⟩
    | false =>
      cases part with
      | some axis =>
        obtain ⟨d, hd, -, hedit⟩ := state?_set h (.ofAccessor (e.axisMember axis))
        exact ⟨d, by simp only [hd, ofFault, Bool.false_eq_true, if_false], hedit, by simp⟩
      | none =>
        obtain ⟨d, hd, hstate, hedit⟩ := becomes_ok h (keepReceiver e .x ++ keepReceiver e .y)
          (.ofAccessor (e.axisMember .z))
        exact ⟨d, by simpa using hd, hedit, fun _ => by simpa [hpack] using hstate⟩

/-! ## Changing a producer again -/

/-- The part of an operand is not an operand, nor a call. -/
theorem narrow_spent (h : c.isOperand x = true) (axis : Axis) :
    c.isSplittable (c.narrow x axis) = false ∧ c.listed? (c.narrow x axis) = none ∧ c.narrow x axis ≠ x := by
  rcases Machine.isOperand_iff.mp h with ⟨slot, rfl, -⟩ | rfl
  · exact ⟨rfl, rfl, by simp [narrow]⟩
  · exact ⟨rfl, rfl, by simp [narrow]⟩

section

variable (hcat : c.catalog.Shaped)

include hcat

/-- The catalog does not list a member without a name. -/
theorem lookup_blank : c.catalog.lookup ⟨[], [], []⟩ = none := by
  cases he : c.catalog.lookup ⟨[], [], []⟩ with
  | none => rfl
  | some e =>
    obtain ⟨hkey, hmem⟩ := Catalog.lookup_key he
    obtain ⟨f, -, hf, -⟩ := (hcat.entries e hmem).type
    rw [hkey] at hf
    cases hf

/-- A producer is an operand, a call that packs, or a call in whose place an accessor comes to stand. -/
theorem emitter_cases (h : c.isEmitter x = true) :
    c.isOperand x = true ∨ c.isPackCall x = true ∨
      c.isPackCall x = false ∧ (∃ e, c.listed? x = some e ∧ e.axes.isSome = true) ∧
        ∃ m : Member, m.desc = ("()I" : Text) ∧ c.remainder x = .ofAccessor m := by
  rw [isEmitter.eq_def, Bool.or_eq_true] at h
  rcases h with h | h
  · exact .inl h
  · cases x with
    | call op m itf =>
      cases he : c.catalog.lookup m with
      | none => simp [he] at h
      | some e =>
        have hlisted : c.listed? (.call op m itf) = some e := he
        have hpackCall := isPackCall_of_listed hlisted
        cases hpack : e.pack with
        | true => exact .inr (.inl (hpackCall.trans hpack))
        | false =>
          simp only [he, Entry.isProducer, hpack, Bool.false_or, Bool.and_eq_true] at h
          obtain ⟨axes, ha⟩ := Option.isSome_iff_exists.mp h.1
          refine .inr (.inr ⟨hpackCall.trans hpack, ⟨e, hlisted, h.1⟩, axes.get .z, ?_, ?_⟩)
          · exact hcat.accessor_desc he ha .z
          · have hoperand := not_isOperand_of_listed hlisted
            simp [remainder, hoperand, hlisted, hpack, Entry.axisMember, ha]
    | _ => simp at h

/-- A producer can be changed. -/
theorem isSplittable_of_isEmitter (h : c.isEmitter x = true) : c.isSplittable x = true := by
  rw [isSplittable, Bool.or_eq_true]
  rcases emitter_cases hcat h with h | h | ⟨-, ⟨e, he, -⟩, -⟩
  · exact .inl h
  · obtain ⟨e, he, -⟩ := (Option.any_eq_true _ _).mp h
    exact .inr (by rw [he]; rfl)
  · exact .inr (by rw [he]; rfl)

/-- An accessor has no accessors of its own, and does not pack. -/
theorem listed_accessor {m : Member} (hm : m.desc = ("()I" : Text)) (h : c.listed? (.ofAccessor m) = some e) :
    e.pack = false ∧ e.axes = none := by
  have he : c.catalog.lookup m = some e := h
  constructor
  · by_contra hpack
    have hdesc := hcat.pack_desc he (by simpa using hpack)
    rw [hm] at hdesc
    exact absurd hdesc (by decide)
  · simpa [he] using hcat.not_axes_of_accessor hm

/-- The second change of an accessor leaves a call that the catalog cannot list. -/
theorem remainder_accessor {m : Member} (hm : m.desc = ("()I" : Text)) :
    c.isPackCall (.ofAccessor m) = false ∧
      (c.listed? (.ofAccessor m) ≠ none → c.remainder (.ofAccessor m) = .ofAccessor ⟨[], [], []⟩) := by
  cases he : c.listed? (.ofAccessor m) with
  | none => exact ⟨by rw [isPackCall, he]; rfl, by simp⟩
  | some e =>
    obtain ⟨hpack, haxes⟩ := listed_accessor hcat hm he
    refine ⟨(isPackCall_of_listed he).trans hpack, fun _ => ?_⟩
    simp [remainder, not_isOperand_of_listed he, he, hpack, Entry.axisMember, haxes]

/-- A producer can be changed as often as it bears. -/
theorem changed_able (h : c.isEmitter x = true) (hk : k < c.bears x) :
    c.isSplittable (c.changed x k).1 = true ∧ (c.changed x k).2 = false := by
  match k with
  | 0 => exact ⟨isSplittable_of_isEmitter hcat h, rfl⟩
  | 1 =>
    have hlisted : c.isPackCall x = false ∧ (c.listed? (c.remainder x)).isSome = true := by
      by_contra hnot
      rw [bears, if_neg hnot] at hk
      exact absurd hk (lt_irrefl 1)
    refine ⟨?_, hlisted.1⟩
    show (c.isOperand (c.remainder x) || (c.listed? (c.remainder x)).isSome) = true
    rw [hlisted.2, Bool.or_true]
  | k + 2 =>
    have hle : c.bears x ≤ 2 := by
      rw [bears]
      split <;> decide
    omega

/-- A producer that was changed as often as it bears can be changed no more, or is removed. -/
theorem changed_spent (h : c.isEmitter x = true) :
    if c.isPackCall x then c.bears x = 1 ∧ c.changed x 1 = (x, true)
    else c.isSplittable (c.changed x (c.bears x)).1 = false := by
  rcases emitter_cases hcat h with h | h | ⟨hpack, ⟨e, he, -⟩, m, hm, hrest⟩
  · obtain ⟨hspent, hlisted, -⟩ := narrow_spent h .z
    have hrest : c.remainder x = c.narrow x .z := by rw [remainder, if_pos h]
    have hbears : c.bears x = 1 := by
      rw [bears, if_neg]
      rw [hrest, hlisted]
      simp
    rw [isPackCall_of_isOperand h, hbears]
    show c.isSplittable (c.remainder x) = false
    rw [hrest, hspent]
  · obtain ⟨e, he, hpack⟩ := (Option.any_eq_true _ _).mp h
    rw [if_pos h]
    refine ⟨by simp [bears, h], ?_⟩
    simp [changed, remainder, not_isOperand_of_listed he, he, hpack, h]
  · obtain ⟨-, hsecond⟩ := remainder_accessor hcat hm
    rw [hpack]
    show c.isSplittable (c.changed x (c.bears x)).1 = false
    cases hlisted : c.listed? (.ofAccessor m) with
    | none =>
      have hbears : c.bears x = 1 := by simp [bears, hrest, hlisted]
      rw [hbears]
      show c.isSplittable (c.remainder x) = false
      rw [hrest, isSplittable, hlisted]
      rfl
    | some e' =>
      have hbears : c.bears x = 2 := by simp [bears, hrest, hlisted, hpack]
      rw [hbears]
      show c.isSplittable (c.remainder (c.remainder x)) = false
      rw [hrest, hsecond (by simp [hlisted]), isSplittable]
      show (c.isOperand _ || (c.catalog.lookup ⟨[], [], []⟩).isSome) = false
      rw [lookup_blank hcat]
      rfl

/-- A producer that was changed is not what it was. -/
theorem changed_eq_iff (h : c.isEmitter x = true) (hk : k ≤ c.bears x) :
    c.changed x k = (x, false) ↔ k = 0 := by
  refine ⟨fun heq => ?_, by rintro rfl; rfl⟩
  have hspent := changed_spent hcat h
  by_contra hne
  rcases eq_or_lt_of_le hk with rfl | hlt
  · split at hspent
    · rw [hspent.1, hspent.2] at heq
      simp at heq
    · rw [heq, isSplittable_of_isEmitter hcat h] at hspent
      cases hspent
  · -- only an accessor can be changed once and then again
    have hk₁ : k = 1 ∧ c.isPackCall x = false ∧ (c.listed? (c.remainder x)).isSome = true := by
      rw [bears] at hlt
      split at hlt
      · next hboth => exact ⟨by omega, hboth⟩
      · omega
    obtain ⟨rfl, hpack, hlisted⟩ := hk₁
    have hrest : c.remainder x = x := congrArg Prod.fst heq
    rcases emitter_cases hcat h with h | h | ⟨-, ⟨e, he, haxes⟩, m, hm, hrest'⟩
    · exact (narrow_spent h .z).2.2 (by rw [remainder, if_pos h] at hrest; exact hrest)
    · rw [hpack] at h
      cases h
    · rw [hrest] at hrest'
      subst hrest'
      rw [(listed_accessor hcat hm he).2] at haxes
      cases haxes

end

/-! ## Changing the producers of a call -/

/-- Instructions are changed one after the other to push three parts each. -/
def splitAll (c : ExpansionContext) (code : Code) (ids : List Nat) : Outcome ConversionError Code :=
  ids.foldlM (fun code (id : Nat) => c.convertProducer none code id) code

/-- The instructions that produced some arguments, in the order in which they are changed. -/
def producersOf (packed : List (Int × Value)) : List Nat := packed.flatMap fun p => p.2.prod.toList

theorem splitAll_producersOf (code : Code) (packed : List (Int × Value)) :
    packed.foldlM (fun code p => c.convertValue none code p.2) code = c.splitAll code (producersOf packed) := by
  induction packed generalizing code with
  | nil => rfl
  | cons p packed ih =>
    rw [List.foldlM_cons, producersOf, List.flatMap_cons, splitAll, List.foldlM_append]
    show (c.convertValue none code p.2 >>= _) = (c.convertValue none code p.2 >>= _)
    congr 1
    funext code'
    exact ih code'

theorem splitAll_append (code : Code) (ids ids' : List Nat) :
    c.splitAll code (ids ++ ids') = c.splitAll code ids >>= fun d => c.splitAll d ids' :=
  List.foldlM_append

theorem splitAll_singleton (code : Code) (p : Nat) : c.splitAll code [p] = c.convertProducer none code p := by
  show (c.convertProducer none code p >>= pure) = _
  exact bind_pure _

/-- All of the instructions are there and can be changed. -/
def Checked (c : ExpansionContext) (code : Code) (ids : List Nat) : Prop :=
  ∀ p ∈ ids, ∃ x, code.state? p = some (x, false) ∧ c.isEmitter x = true

/-- How often the producer of an id can be changed. -/
def bearsAt (c : ExpansionContext) (code : Code) (p : Nat) : Nat := ((code.get? p).map c.bears).getD 0

/-- No instruction is met more often than it can be changed. -/
def Bearable (c : ExpansionContext) (code : Code) (ids : List Nat) : Prop :=
  ∀ p ∈ ids, ids.count p ≤ c.bearsAt code p

/-- The instruction `p` is the first that is met more often than it can be changed. -/
def Overruns (c : ExpansionContext) (code : Code) (ids : List Nat) (p : Nat) : Prop :=
  ∃ before after, ids = before ++ p :: after ∧ c.Bearable code before ∧ c.bearsAt code p ≤ before.count p

variable {ids : List Nat} {p : Nat}

theorem bearsAt_eq (h : code.state? p = some (x, removed)) : c.bearsAt code p = c.bears x := by
  rw [bearsAt, get?_of_state? h]
  rfl

theorem Bearable.of_append {ids' : List Nat} (h : c.Bearable code (ids ++ ids')) : c.Bearable code ids := by
  intro q hq
  refine le_trans ?_ (h q (List.mem_append_left _ hq))
  rw [List.count_append]
  exact Nat.le_add_right _ _

theorem Bearable.count_le (h : c.Bearable code ids) (q : Nat) : ids.count q ≤ c.bearsAt code q := by
  by_cases hq : q ∈ ids
  · exact h q hq
  · rw [List.count_eq_zero_of_not_mem hq]
    exact Nat.zero_le _

/-- Producers that are not met too often are changed as often as they are met. -/
theorem splitAll_bearable (hcat : c.catalog.Shaped) (hchecked : c.Checked code ids) (h : c.Bearable code ids) :
    ∃ d, c.splitAll code ids = .ok d ∧
      ∀ (q : Nat) (y : Insn), code.state? q = some (y, false) → d.state? q = some (c.changed y (ids.count q)) := by
  induction ids using List.reverseRecOn with
  | nil => exact ⟨code, rfl, fun q y hq => hq⟩
  | append_singleton ids p ih =>
    obtain ⟨d, hd, hstate⟩ := ih (fun q hq => hchecked q (List.mem_append_left _ hq)) h.of_append
    obtain ⟨x, hx, hemitter⟩ := hchecked p (by simp)
    have hlt : ids.count p < c.bears x := by
      have hle := h p (by simp)
      rw [List.count_append, List.count_singleton_self, bearsAt_eq hx] at hle
      omega
    obtain ⟨hable, hremoved⟩ := changed_able hcat hemitter hlt
    have hp : d.state? p = some ((c.changed x (ids.count p)).1, false) := by
      rw [hstate p x hx, ← hremoved]
    obtain ⟨d', hd', hedit, hchanged⟩ := convertProducer_ok none hp hable
    refine ⟨d', by rw [splitAll_append, hd, ← hd', ← splitAll_singleton]; rfl, ?_⟩
    intro q y hq
    rw [List.count_append]
    by_cases hqp : q = p
    · subst hqp
      obtain rfl : y = x := (Prod.mk.inj (Option.some.inj (hq.symm.trans hx))).1
      rw [hchanged rfl, List.count_singleton_self]
      rfl
    · have hcount : List.count q [p] = 0 := by simp [Ne.symm hqp]
      have hold := hstate q y hq
      rw [hcount, Nat.add_zero, ← hold]
      exact hedit.others q (by exact_mod_cast hqp) (lt_size_of_state? hold)

/-- A producer that is met too often fails to be changed. It is a fault, unless the producer is gone. -/
theorem splitAll_overruns (hcat : c.catalog.Shaped) (hchecked : c.Checked code ids) (h : c.Overruns code ids p)
    (hx : code.get? p = some x) :
    c.splitAll code ids = .error (if c.isPackCall x then .error (.remove (.dead p)) else .fault .form) := by
  obtain ⟨before, after, rfl, hbearable, hover⟩ := h
  obtain ⟨d, hd, hstate⟩ := splitAll_bearable hcat (fun q hq => hchecked q (by simp [hq])) hbearable
  obtain ⟨x', hx', hemitter⟩ := hchecked p (by simp)
  obtain rfl : x' = x := Option.some.inj ((get?_of_state? hx').symm.trans hx)
  have hcount : before.count p = c.bears x' := by
    rw [bearsAt_eq hx'] at hover
    exact le_antisymm (bearsAt_eq hx' ▸ hbearable.count_le p) hover
  have hp := hstate p x' hx'
  rw [hcount] at hp
  have hspent := changed_spent hcat hemitter
  have hfails : c.convertProducer none d p =
      .error (if c.isPackCall x' then .error (.remove (.dead p)) else .fault .form) := by
    split at hspent
    · next hpack =>
      rw [hspent.1, hspent.2] at hp
      rw [convertProducer_removed hp hpack, if_pos hpack]
    · next hpack => rw [convertProducer_unable (get?_of_state? hp) hspent, if_neg hpack]
  rw [splitAll_append, hd, ← List.singleton_append]
  show c.splitAll d ([p] ++ after) = _
  rw [splitAll_append, splitAll_singleton, hfails]
  rfl

/-- What cannot be borne overruns somewhere. -/
theorem exists_overrun (h : ¬ c.Bearable code ids) : ∃ p ∈ ids, c.Overruns code ids p := by
  induction ids using List.reverseRecOn with
  | nil => exact absurd (by simp [Bearable]) h
  | append_singleton ids q ih =>
    by_cases hids : c.Bearable code ids
    · refine ⟨q, by simp, ids, [], rfl, hids, ?_⟩
      by_contra hlt
      apply h
      intro p hp
      rw [List.count_append]
      by_cases hpq : p = q
      · subst hpq
        rw [List.count_singleton_self]
        omega
      · have hcount : List.count p [q] = 0 := by simp [Ne.symm hpq]
        rw [hcount]
        exact hids.count_le p
    · obtain ⟨p, hp, before, after, hsplit, hover⟩ := ih hids
      refine ⟨p, by simp [hp], before, after ++ [q], ?_, hover⟩
      rw [hsplit, List.append_assoc, List.cons_append]

/-- Changing producers faults iff one of them is met too often and is still there. -/
theorem splitAll_fault_iff (hcat : c.catalog.Shaped) (hchecked : c.Checked code ids) :
    (∃ f, c.splitAll code ids = .error (.fault f)) ↔
      ∃ p x, c.Overruns code ids p ∧ code.get? p = some x ∧ c.isPackCall x = false := by
  constructor
  · rintro ⟨f, hf⟩
    by_cases hbearable : c.Bearable code ids
    · obtain ⟨d, hd, -⟩ := splitAll_bearable hcat hchecked hbearable
      rw [hd] at hf
      cases hf
    · obtain ⟨p, hp, hover⟩ := exists_overrun hbearable
      obtain ⟨x, hx, -⟩ := hchecked p hp
      have hget := get?_of_state? hx
      refine ⟨p, x, hover, hget, ?_⟩
      by_contra hpack
      rw [splitAll_overruns hcat hchecked hover hget, if_pos (by simpa using hpack)] at hf
      cases hf
  · rintro ⟨p, x, hover, hx, hpack⟩
    refine ⟨.form, ?_⟩
    rw [splitAll_overruns hcat hchecked hover hx, hpack]
    rfl

/-- What was changed was not met too often. -/
theorem bearable_of_splitAll (hcat : c.catalog.Shaped) (hchecked : c.Checked code ids) {d : Code}
    (h : c.splitAll code ids = .ok d) : c.Bearable code ids ∧
      ∀ (q : Nat) (y : Insn), code.state? q = some (y, false) → d.state? q = some (c.changed y (ids.count q)) := by
  have hbearable : c.Bearable code ids := by
    by_contra hnot
    obtain ⟨p, hp, hover⟩ := exists_overrun hnot
    obtain ⟨x, hx, -⟩ := hchecked p hp
    rw [splitAll_overruns hcat hchecked hover (get?_of_state? hx)] at h
    cases h
  obtain ⟨d', hd', hstate⟩ := splitAll_bearable hcat hchecked hbearable
  obtain rfl := Except.ok.inj (hd'.symm.trans h)
  exact ⟨hbearable, hstate⟩

theorem splitAll_keeps (hcat : c.catalog.Shaped) (hchecked : c.Checked code ids) {d : Code}
    (h : c.splitAll code ids = .ok d) (hlive : code.isLive id = true) : ∃ s, d.state? id = some s := by
  obtain ⟨n, hn⟩ : ∃ n, code.node? id = some n := by
    rw [isLive] at hlive
    split at hlive
    · next n hn => exact ⟨n, hn⟩
    · cases hlive
  have hstate : code.state? id = some (n.insn, false) :=
    state?_of_isLive hlive (by rw [get?, hn]; rfl)
  obtain ⟨k, rfl⟩ := Int.eq_ofNat_of_zero_le (lt_size_of_node? hn).1
  exact ⟨_, (bearable_of_splitAll hcat hchecked h).2 k n.insn hstate⟩

/-! ## Converting a call -/

variable {a : Analysis} {expanded : IndexSet} {op : Opcode} {m : Member} {itf : Bool} {f : Frame}

/-- What was found to be a producer: it is there, only the call uses what it pushes, and it can push parts. -/
theorem checkProducer_ok {call : InsnId} (h : c.checkProducer a code call id = .ok ()) :
    code.isLive id = true ∧ (a.consumersOf id).size = 1 ∧ (a.consumersOf id).contains call = true ∧
      ∃ x, code.get? id = some x ∧ c.isEmitter x = true := by
  simp only [checkProducer] at h
  split at h
  · cases h
  · next hlive =>
    split at h
    · cases h
    · next husers =>
      simp only [not_or, ne_eq, not_not, Bool.not_eq_true, Bool.not_eq_false'] at husers hlive
      split at h
      · next x hx =>
        split at h
        · next hemitter => exact ⟨by simpa using hlive, husers.1, husers.2, x, hx, hemitter⟩
        · cases h
      · cases h

theorem forM_ok {ε α : Type} {g : α → Except ε Unit} {xs : List α} (h : xs.forM g = .ok ()) :
    ∀ x ∈ xs, g x = .ok () := by
  induction xs with
  | nil => simp
  | cons y xs ih =>
    rw [List.forM] at h
    obtain ⟨⟨⟩, hy, h⟩ := except_bind_ok.mp h
    exact List.forall_mem_cons.mpr ⟨hy, ih h⟩

theorem checkProducers_ok {call : InsnId} {v : Value} (h : c.checkProducers a code call v = .ok ()) :
    ∀ p ∈ v.prod.toList, c.checkProducer a code call (p : Nat) = .ok () := by
  rw [checkProducers] at h
  split at h
  · cases h
  · exact forM_ok h

/-- What was found to be the producers of a value can be changed. -/
theorem checked_of_checkProducers {call : InsnId} {v : Value} (h : c.checkProducers a code call v = .ok ()) :
    c.Checked code v.prod.toList := by
  intro p hp
  obtain ⟨hlive, -, -, x, hx, hemitter⟩ := checkProducer_ok (checkProducers_ok h p hp)
  exact ⟨x, state?_of_isLive hlive hx, hemitter⟩

/-- The producers of all arguments were checked. -/
theorem packedArgs_ok {receivers : Nat} {known : List Int} {args : List Value} {packed : List (Int × Value)}
    (h : c.packedArgs a expanded code id m receivers known k args = .ok packed) :
    ∀ q ∈ packed, c.checkProducers a code id q.2 = .ok () := by
  induction args generalizing k packed with
  | nil =>
    obtain rfl := Except.ok.inj h
    simp
  | cons v rest ih =>
    rw [packedArgs] at h
    split at h
    · split at h
      · cases h
      · split at h
        · cases h
        · next hcheck =>
          cases hrest : c.packedArgs a expanded code id m receivers known (k + 1) rest with
          | error e => simp [hrest, Except.map] at h
          | ok vs =>
            rw [hrest] at h
            obtain rfl := Except.ok.inj h
            exact List.forall_mem_cons.mpr ⟨hcheck, ih hrest⟩
    · exact ih h

/-- A call passes its checks: the arguments `packed` are to be split, and `target` is to be called instead. -/
structure Accepts (c : ExpansionContext) (a : Analysis) (expanded : IndexSet) (code : Code) (id : InsnId)
    (op : Opcode) (m : Member) (f : Frame) (packed : List (Int × Value)) (target : Member) : Prop where
  notUnpack : c.catalog.unpackAxis? m = none
  entry : ∀ e, c.catalog.lookup m = some e → e.returnsPacked = false ∧ (e.isStatic == op.hasReceiver) = false
  args : ∃ args, f.callArgs op m = .ok args ∧ c.packedArgs a expanded code id m (if op.hasReceiver then 1 else 0)
    (((c.catalog.lookup m).map Entry.positions).getD []) 0 args = .ok packed
  nonempty : packed ≠ []
  target : replacementOf id m (c.catalog.lookup m) (packed.map Prod.fst) = .ok target

variable {packed : List (Int × Value)} {target : Member}

theorem Accepts.checked (h : c.Accepts a expanded code id op m f packed target) :
    c.Checked code (producersOf packed) := by
  obtain ⟨args, -, hargs⟩ := h.args
  intro p hp
  obtain ⟨q, hq, hp⟩ := List.mem_flatMap.mp hp
  exact checked_of_checkProducers (packedArgs_ok hargs q hq) p hp

/-- A call that is accepted has its producers changed, and then itself. -/
theorem convertCall_of_accepts (h : c.Accepts a expanded code id op m f packed target) :
    c.convertCall a expanded code id op m itf f =
      c.splitAll code (producersOf packed) >>= fun d =>
        ofFault (d.set id (.call op target itf)) >>= fun d => .ok (some d) := by
  obtain ⟨args, hargs, hpacked⟩ := h.args
  have hconvert : c.convertArgs a expanded code id op m itf f = c.splitAll code (producersOf packed) >>= fun d =>
      ofFault (d.set id (.call op target itf)) >>= fun d => .ok (some d) := by
    have hne : packed.isEmpty = false := by simpa using h.nonempty
    rw [convertArgs, hargs, Outcome.ofExcept]
    simp only [bind, Except.bind, hpacked, h.target, lift, hne, Bool.false_eq_true, if_false]
    rw [← splitAll_producersOf]
    rfl
  rw [convertCall_eq, h.notUnpack]
  cases he : c.catalog.lookup m with
  | none => exact hconvert
  | some e =>
    obtain ⟨hreturns, hstatic⟩ := h.entry e he
    simp only [hreturns, hstatic, Bool.false_eq_true, if_false, hconvert]

/-- A call that takes an axis out is converted in its own way. Any other call passes its checks, or stays as it
is, or is refused. -/
theorem convertCall_cases :
    (∃ axis, c.catalog.unpackAxis? m = some axis ∧
      c.convertCall a expanded code id op m itf f = c.convertUnpack a expanded code id f axis) ∨
    (∃ packed target, c.Accepts a expanded code id op m f packed target) ∨
    c.convertCall a expanded code id op m itf f = .ok none ∨
    ∃ e, c.convertCall a expanded code id op m itf f = .error (.error e) := by
  rw [convertCall_eq]
  cases hunpack : c.catalog.unpackAxis? m with
  | some axis => exact .inl ⟨axis, rfl, rfl⟩
  | none =>
    right
    have hargs : (∀ e, c.catalog.lookup m = some e → e.returnsPacked = false ∧ (e.isStatic == op.hasReceiver) = false) →
        (∃ packed target, c.Accepts a expanded code id op m f packed target) ∨
        c.convertArgs a expanded code id op m itf f = .ok none ∨
        ∃ e, c.convertArgs a expanded code id op m itf f = .error (.error e) := by
      intro hentry
      rw [convertArgs]
      cases hcall : f.callArgs op m with
      | error e => exact .inr (.inr ⟨.args id e, rfl⟩)
      | ok args =>
        simp only [Outcome.ofExcept, bind, Except.bind]
        cases hpacked : c.packedArgs a expanded code id m (if op.hasReceiver then 1 else 0)
            (((c.catalog.lookup m).map Entry.positions).getD []) 0 args with
        | error e => exact .inr (.inr ⟨e, rfl⟩)
        | ok packed =>
          simp only [lift]
          by_cases hne : packed.isEmpty = true
          · rw [if_pos hne]
            exact .inr (.inl rfl)
          · rw [if_neg hne]
            cases htarget : replacementOf id m (c.catalog.lookup m) (packed.map Prod.fst) with
            | error e => exact .inr (.inr ⟨e, rfl⟩)
            | ok target =>
              exact .inl ⟨packed, target, hunpack, hentry, ⟨args, hcall, hpacked⟩, by simpa using hne, htarget⟩
    cases he : c.catalog.lookup m with
    | none => exact hargs (by simp [he])
    | some e =>
      simp only
      split
      · exact .inr (.inl rfl)
      · next hreturns =>
        split
        · exact .inr (.inr ⟨_, rfl⟩)
        · next hstatic =>
          apply hargs
          rintro e' he'
          obtain rfl := Option.some.inj (he.symm.trans he')
          exact ⟨by simpa using hreturns, by simpa using hstatic⟩

/-- Producers that are all different can be changed. -/
theorem convertProducers_ok (hcat : c.catalog.Shaped) (part : Option Axis) (hchecked : c.Checked code ids)
    (hnodup : ids.Nodup) :
    ∃ d, ids.foldlM (fun code (id : Nat) => c.convertProducer part code id) code = .ok d := by
  induction ids generalizing code with
  | nil => exact ⟨code, rfl⟩
  | cons p ids ih =>
    obtain ⟨hp, hnodup⟩ := List.nodup_cons.mp hnodup
    obtain ⟨x, hx, hemitter⟩ := hchecked p (by simp)
    obtain ⟨d, hd, hedit, -⟩ := convertProducer_ok part hx (isSplittable_of_isEmitter hcat hemitter)
    have hchecked' : c.Checked d ids := by
      intro q hq
      obtain ⟨y, hy, hemitter'⟩ := hchecked q (by simp [hq])
      have hne : (q : Int) ≠ p := by
        intro heq
        obtain rfl : q = p := by exact_mod_cast heq
        exact hp hq
      exact ⟨y, by rw [hedit.others q hne (lt_size_of_state? hy), hy], hemitter'⟩
    obtain ⟨d', hd'⟩ := ih hchecked' hnodup
    refine ⟨d', ?_⟩
    rw [List.foldlM_cons, hd]
    exact hd'

/-- Taking an axis out of a coordinate is never a fault. -/
theorem convertUnpack_no_fault (hcat : c.catalog.Shaped) {axis : Axis} (g : Fault) :
    c.convertUnpack a expanded code id f axis ≠ .error (.fault g) := by
  intro h
  rw [convertUnpack.eq_def] at h
  split at h
  · cases h
  · next v rest hstack =>
    split at h
    · cases h
    · rcases except_bind_error.mp h with h | ⟨⟨⟩, hcheck, h⟩
      · obtain ⟨cause, -, hcause⟩ := ofExcept_error h
        cases hcause
      · obtain ⟨d, hd⟩ := convertProducers_ok hcat (some axis)
          (checked_of_checkProducers (ofExcept_ok.mp hcheck)) v.prod.toList_nodup
        have hvalue : c.convertValue (some axis) code v = .ok d := hd
        rw [hvalue] at h
        rcases except_bind_error.mp h with h | ⟨d', hd', h⟩
        · cases h
        · rcases except_bind_error.mp h with h | ⟨d'', -, h⟩
          · obtain ⟨cause, -, hcause⟩ := ofExcept_error h
            cases hcause
          · cases h

/-- Converting a call faults iff it passes its checks and a producer of its arguments is met too often. -/
theorem convertCall_fault_iff (hcat : c.catalog.Shaped) (hlive : code.isLive id = true) (itf : Bool) :
    (∃ g, c.convertCall a expanded code id op m itf f = .error (.fault g)) ↔
      ∃ packed target p x, c.Accepts a expanded code id op m f packed target ∧
        c.Overruns code (producersOf packed) p ∧ code.get? p = some x ∧ c.isPackCall x = false := by
  constructor
  · rintro ⟨g, hg⟩
    rcases @convertCall_cases c code id a expanded op m itf f with ⟨axis, -, h⟩ | ⟨packed, target, h⟩ | h | ⟨e, h⟩
    · rw [h] at hg
      exact absurd hg (convertUnpack_no_fault hcat g)
    · have hsplit : ∃ g, c.splitAll code (producersOf packed) = .error (.fault g) := by
        rw [convertCall_of_accepts h] at hg
        rcases except_bind_error.mp hg with hg | ⟨d, hd, hg⟩
        · exact ⟨g, hg⟩
        · -- the call itself is still there
          obtain ⟨s, hs⟩ := splitAll_keeps hcat h.checked hd hlive
          obtain ⟨d', hd', -⟩ := state?_set hs (.call op target itf)
          rw [hd'] at hg
          cases hg
      obtain ⟨p, x, hover, hx, hpack⟩ := (splitAll_fault_iff hcat h.checked).mp hsplit
      exact ⟨packed, target, p, x, h, hover, hx, hpack⟩
    · rw [h] at hg
      cases hg
    · rw [h] at hg
      cases hg
  · rintro ⟨packed, target, p, x, h, hover, hx, hpack⟩
    obtain ⟨g, hg⟩ := (splitAll_fault_iff hcat h.checked).mpr ⟨p, x, hover, hx, hpack⟩
    refine ⟨g, ?_⟩
    rw [convertCall_of_accepts h, hg]
    rfl

end ExpansionContext

/-! ## Converting the calls of a method -/

namespace Method

variable {cat : Catalog} {owner suffix : Text} {m : Method} {a : Analysis} {slots : IndexSet}

/-- Converting the calls of the method comes to the call `id`, which passes its checks: by then the code is
`code`, and the arguments `packed` of the call are about to be split. -/
def Splits (cat : Catalog) (a : Analysis) (slots : IndexSet) (m : Method) (code : Code) (id : InsnId)
    (packed : List (Int × Value)) : Prop :=
  let c : ExpansionContext := ⟨cat, .ofSlots slots⟩
  let patterns := PatternRun.ofCode c (c.slots.apply m.code).code
  (c.slots.apply m.code).refused = none ∧ patterns.failed = none ∧
    ∃ done x f rest op member itf target, a.reachable = done ++ ((id, x), f) :: rest ∧
      (CallRun.convertAll c a slots done ⟨patterns.code, 0, none⟩).failed = none ∧
      (CallRun.convertAll c a slots done ⟨patterns.code, 0, none⟩).code = code ∧
      code.isLive id = true ∧ code.get? id = some (.call op member itf) ∧
      c.Accepts a slots code id op member f packed target

/-- Rewriting an analysed method faults only where its calls are converted. -/
theorem rewrite_fault_iff (hcode : m.code.WellLinked) {g : Fault} :
    m.rewrite cat a slots = .error (.fault g) ↔
      ((SlotMap.ofSlots slots).apply m.code).refused = none ∧
      (PatternRun.ofCode ⟨cat, .ofSlots slots⟩ ((SlotMap.ofSlots slots).apply m.code).code).failed = none ∧
      (m.callRun cat a slots).failed = some (.fault g) := by
  constructor
  · intro h
    simp only [rewrite, clone_eq] at h
    split at h
    · cases h
    · next hmoved =>
      have hlinked := (SlotMap.apply_holds hcode hmoved).1.wellLinked
      split at h
      · next p f hfailed =>
        obtain ⟨e, he, -⟩ := PatternRun.scan_failed hlinked rfl hfailed
        cases he
      · cases h
      · next hpatterns =>
        split at h
        · next f hfailed =>
          obtain rfl := Failure.fault.inj (Except.error.inj h)
          exact ⟨hmoved, hpatterns, hfailed⟩
        · cases h
        · split at h
          · cases h
          · cases h
  · rintro ⟨hmoved, hpatterns, hcalls⟩
    rw [callRun] at hcalls
    simp only [rewrite, clone_eq, hmoved, hpatterns, hcalls]

/-- Behind the analysis only rewriting faults. -/
theorem transformSteps_fault_iff_rewrite (ha : Analysis.ofMethod owner m = .ok a) {g : Fault} :
    m.transformSteps cat owner suffix = .error (.fault g) ↔
      ∃ e, Expansion.solve cat a = .ok e ∧ m.rewrite cat a e.slots = .error (.fault g) := by
  rw [transformSteps_eq ha]
  constructor
  · intro h
    rcases except_bind_error.mp h with h | ⟨e, he, h⟩
    · rcases mapError_error h with ⟨g', hg', -⟩ | ⟨e, -, he⟩
      · obtain ⟨e, he, -⟩ := Expansion.solve_error ha hg'
        cases he
      · cases he
    · refine ⟨e, mapError_ok.mp he, ?_⟩
      rcases except_bind_error.mp h with h | ⟨r, -, h⟩
      · exact h
      · split at h
        · cases h
        · rcases except_bind_error.mp h with h | ⟨new, -, h⟩
          · obtain ⟨cause, -, hcause⟩ := ofExcept_error h
            cases hcause
          · cases h
  · rintro ⟨e, he, hr⟩
    rw [(@mapError_ok _ _ _ TransformError.expansion _ _).mpr he]
    exact except_bind_error.mpr (.inr ⟨e, rfl, except_bind_error.mpr (.inl hr)⟩)

/-- Where a transformation faults. Let a method be analysed, and let the catalog be one that could be built. Then
the stages behind the analysis fault iff converting the calls comes to a call that passes its checks, and the
first of its producers that is met more often than it can be changed is not a call that packs. Such a producer
is still what was checked when its turn comes, iff it has not been changed for an earlier argument. -/
theorem transformSteps_faults_iff {s : CatalogSpec} (hcat : s.build = .ok cat) (hcode : m.code.WellLinked)
    (ha : Analysis.ofMethod owner m = .ok a) :
    ((∃ g, m.transformSteps cat owner suffix = .error (.fault g)) ↔
      ∃ e code id packed p x, Expansion.solve cat a = .ok e ∧ m.Splits cat a e.slots code id packed ∧
        ExpansionContext.Overruns ⟨cat, .ofSlots e.slots⟩ code (ExpansionContext.producersOf packed) p ∧
        code.get? p = some x ∧ ExpansionContext.isPackCall ⟨cat, .ofSlots e.slots⟩ x = false) ∧
    ∀ e code id packed, Expansion.solve cat a = .ok e → m.Splits cat a e.slots code id packed →
      ∀ (before : List Nat) (p : Nat) (after : List Nat) (code' : Code),
        ExpansionContext.producersOf packed = before ++ p :: after →
        ExpansionContext.splitAll ⟨cat, .ofSlots e.slots⟩ code before = .ok code' →
        (code'.isLive p = true ∧ code'.get? p = code.get? p ↔ p ∉ before) := by
  have hshaped := CatalogSpec.build_shaped hcat
  refine ⟨?_, ?_⟩
  · simp only [transformSteps_fault_iff_rewrite ha, rewrite_fault_iff hcode]
    constructor
    · rintro ⟨g, e, he, hmoved, hpatterns, hfailed⟩
      obtain ⟨done, ⟨⟨id, x⟩, f⟩, rest, hsplit, hdone, hline⟩ := (CallRun.convertAll_failed_iff rfl).mp hfailed
      obtain ⟨op, member, itf, hlive, hget, hcall⟩ := CallRun.convertLine_error_iff.mp hline
      obtain ⟨packed, target, p, y, haccepts, hover, hy, hpack⟩ :=
        (convertCall_fault_iff hshaped hlive itf).mp ⟨g, hcall⟩
      exact ⟨e, _, id, packed, p, y, he, ⟨hmoved, hpatterns, done, x, f, rest, op, member, itf, target, hsplit, hdone,
        rfl, hlive, hget, haccepts⟩, hover, hy, hpack⟩
    · rintro ⟨e, code, id, packed, p, y, he, ⟨hmoved, hpatterns, done, x, f, rest, op, member, itf, target, hsplit,
        hdone, rfl, hlive, hget, haccepts⟩, hover, hy, hpack⟩
      obtain ⟨g, hg⟩ := (convertCall_fault_iff hshaped hlive itf).mpr
        ⟨packed, target, p, y, haccepts, hover, hy, hpack⟩
      refine ⟨g, e, he, hmoved, hpatterns, ?_⟩
      exact (CallRun.convertAll_failed_iff rfl).mpr
        ⟨done, _, rest, hsplit, hdone, CallRun.convertLine_error_iff.mpr ⟨op, member, itf, hlive, hget, hg⟩⟩
  · rintro e code id packed - ⟨-, -, done, y, f, rest, op, member, itf, target, -, -, -, -, -, haccepts⟩ before p after
      code' hproducers hsplit
    have hchecked := haccepts.checked
    rw [hproducers] at hchecked
    obtain ⟨x, hx, hemitter⟩ := hchecked p (by simp)
    obtain ⟨hbearable, hstate⟩ :=
      bearable_of_splitAll hshaped (fun q hq => hchecked q (by simp [hq])) hsplit
    have hp := hstate p x hx
    have hle := hbearable.count_le p
    rw [bearsAt_eq hx] at hle
    rw [← List.count_eq_zero, ← changed_eq_iff hshaped hemitter hle,
      isLive_of_state? hp, get?_of_state? hp, get?_of_state? hx]
    constructor
    · rintro ⟨hlive, hsame⟩
      exact Prod.ext (Option.some.inj hsame) (by simpa using hlive)
    · intro heq
      rw [heq]
      exact ⟨rfl, rfl⟩

/-! ## A coordinate that is taken twice

The method copies a coordinate on the stack and passes both copies to one call. -/

namespace TwiceTaken

/-- The call takes two packed coordinates. -/
def spec : CatalogSpec where
  unpacking := ["P#x (J)I", "P#y (J)I", "P#z (J)I"]
  methods := [("Q#h (JJ)V", { packedArgs := [0, 1], isStatic := true })]

/-- The catalog of the description. -/
def catalog : Catalog :=
  ⟨[⟨⟨"Q", "h", "(JJ)V"⟩, false, [0, 1], true, ⟨"Q", "h", "(IIIIII)V"⟩, none, false⟩],
   ⟨⟨"P", "x", "(J)I"⟩, ⟨"P", "y", "(J)I"⟩, ⟨"P", "z", "(J)I"⟩⟩, none, CatalogSpec.defaultSentinel⟩

/-- The method. -/
def method : Method :=
  ⟨"m", "(J)V", ⟨8⟩, .ofList [.var .lload 0, .plain .dup2, .call .invokestatic ⟨"Q", "h", "(JJ)V"⟩ false,
    .plain .returnVoid], [], [], 4, 2⟩

theorem spec_build : spec.build = .ok catalog := by
  have hsorted : ([0, 1] : List Int).mergeSort (· ≤ ·) = [0, 1] := by
    apply List.mergeSort_of_pairwise
    decide
  apply except_ok_of_toOption
  simp only [CatalogSpec.build, CatalogSpec.buildEntries, EntrySpec.build, spec, hsorted]
  decide +kernel

/-- The computation ended in a fault. -/
def faults {ε α : Type} : Outcome ε α → Bool
  | .error (.fault _) => true
  | _ => false

/-- The method can be analysed, but the load is to be changed for both arguments, and the second time is a fault. -/
theorem transformSteps_faults_iff_twiceTaken :
    ∃ a e code id packed p x, Analysis.ofMethod "C" method = .ok a ∧ Expansion.solve catalog a = .ok e ∧
      method.Splits catalog a e.slots code id packed ∧
      ExpansionContext.Overruns ⟨catalog, .ofSlots e.slots⟩ code (ExpansionContext.producersOf packed) p ∧
      code.get? p = some x ∧ ExpansionContext.isPackCall ⟨catalog, .ofSlots e.slots⟩ x = false := by
  have hanalysed : (Analysis.ofMethod "C" method).toOption.isSome = true := by decide +kernel
  have hfault : faults (method.transformSteps catalog "C" "") = true := by decide +kernel
  obtain ⟨a, ha⟩ := Option.isSome_iff_exists.mp hanalysed
  have ha := except_ok_of_toOption ha
  have hcode : method.code.WellLinked := (holds_ofList _).wellLinked
  obtain ⟨e, code, id, packed, p, x, he, hrest⟩ :=
    (@transformSteps_faults_iff _ _ "" _ _ _ spec_build hcode ha).1.mp (by
      rw [faults.eq_def] at hfault
      split at hfault
      · next g hg => exact ⟨g, hg⟩
      · cases hfault)
  exact ⟨a, e, code, id, packed, p, x, ha, he, hrest⟩

end TwiceTaken

end Method

end CoordSplit
