import CoordSplit.Proofs.ReferenceIntegrity
import CoordSplit.Proofs.SignatureWidth
import CoordSplit.Proofs.SlotAliasing
import CoordSplit.Proofs.SlotClosure
import CoordSplit.Proofs.TransformTyping

/-!
# Slot limits

The slot limit of a method covers it if its parameters, its variables and all accesses of its code lie below
(`Method.CoversSlots`). Every expanded slot is accessed by the code (`Expansion.accesses_of_solve`), and as a whole
long, so both its words lie below the limit. Hence all expanded slots count for the place of the limit itself, and the
three slots that an expanded one becomes lie below that place.

Whatever the stages put into a code uses these slots, or slots that an instruction of the code used before, or none
(`SlotMap.admits_below`). So nothing reaches past the place of the limit, and a transformed method needs one slot
more for each expanded one, neither more nor fewer (`Method.transform_maxLocals`). A limit whose place is past the
greatest slot comes round, and then no longer counts.
-/

set_option autoImplicit false

namespace CoordSplit

open SlotMap

/-! ## Expanded slots are accessed -/

namespace Seed

variable {cat : Catalog} {id : InsnId} {k : Nat} {s : Seed}

/-- Arguments add their slots. -/
theorem mem_joinArgs {args : List Value} {ps : List Int} (h : k ∈ (joinArgs id args ps s).1.slots) :
    k ∈ s.slots ∨ ∃ v ∈ args, k ∈ v.slots := by
  induction ps generalizing s with
  | nil => exact .inl h
  | cons p ps ih =>
    rw [joinArgs] at h
    split at h
    · exact .inl h
    · next v hv =>
      rcases ih h with h | h
      · have h : k ∈ s.slots ∨ k ∈ v.slots := by simpa using h
        exact h.imp_right fun h => ⟨v, List.mem_of_getElem? hv, h⟩
      · exact .inr h

/-- Slots that are joined are among those. -/
theorem mem_joinSlots {slots : List Int} (h : k ∈ (joinSlots slots s).1.slots) : k ∈ s.slots ∨ (k : Int) ∈ slots := by
  induction slots generalizing s with
  | nil => exact .inl h
  | cons j slots ih =>
    rw [joinSlots] at h
    split at h
    · exact .inl h
    · next t ht =>
      rcases ih h with h | h
      · cases j with
        | negSucc j => cases ht
        | ofNat j =>
          rw [← Except.ok.inj ht] at h
          have h : j = k ∨ k ∈ s.slots := by simpa [or_comm] using h
          rcases h with rfl | h
          · exact .inr List.mem_cons_self
          · exact .inl h
      · exact .inr (List.mem_cons_of_mem _ h)

/-- A call adds slots of values on its stack, and slots that a value is stored to. -/
theorem mem_joinCall {a : Analysis} {op : Opcode} {callee : Member} {f : Frame}
    (h : k ∈ (joinCall cat a id op callee f s).1.slots) :
    k ∈ s.slots ∨ (∃ v ∈ f.stack, k ∈ v.slots) ∨ ∃ v, (k : Int) ∈ a.storedTo v := by
  rw [joinCall.eq_def] at h
  split at h
  · split at h
    · exact .inl h
    · exact .inl h
  · next e he =>
    split at h
    · exact .inl h
    · next args hargs =>
      obtain ⟨-, rest, -, hstack, -⟩ := ExpansionContext.stack_of_callArgs hargs
      have hjoined : ∀ {s' : Seed}, (joinArgs id args e.positions s).1 = s' → k ∈ s'.slots →
          k ∈ s.slots ∨ ∃ v ∈ f.stack, k ∈ v.slots := by
        rintro s' rfl hk
        refine (mem_joinArgs hk).imp_right ?_
        rintro ⟨v, hv, hk⟩
        exact ⟨v, by simp [hstack, hv], hk⟩
      split at h
      · next s' _ hs' => exact (hjoined (congrArg Prod.fst hs') h).imp_right .inl
      · next s' hs' =>
        split at h
        · next v _ _ =>
          rcases mem_joinSlots h with h | h
          · exact (hjoined (congrArg Prod.fst hs') h).imp_right .inl
          · exact .inr (.inr ⟨v, h⟩)
        · exact (hjoined (congrArg Prod.fst hs') h).imp_right .inl

/-- Every slot that a call adds is accessed by the code. -/
theorem accesses_of_joinCalls {owner : Text} {m : Method} {a : Analysis} (ha : Analysis.ofMethod owner m = .ok a)
    {ls : List ((InsnId × Insn) × Frame)} (hls : ∀ p ∈ ls, p ∈ a.reachable) (hs : ∀ k ∈ s.slots, m.code.Accesses k)
    (h : k ∈ (joinCalls cat a ls s).1.slots) : m.code.Accesses k := by
  induction ls generalizing s with
  | nil => exact hs k h
  | cons line ls ih =>
    have hrest : ∀ p ∈ ls, p ∈ a.reachable := fun p hp => hls p (List.mem_cons_of_mem _ hp)
    obtain ⟨⟨i, x⟩, f⟩ := line
    cases x with
    | call op callee itf =>
      have hcall : ∀ j, j ∈ (joinCall cat a i op callee f s).1.slots → m.code.Accesses j := by
        intro j hj
        rcases mem_joinCall hj with hj | ⟨v, hv, hj⟩ | ⟨v, hj⟩
        · exact hs j hj
        · obtain ⟨p, hp⟩ := Expansion.before_of_mem_reachable (hls _ List.mem_cons_self)
          exact Expansion.accesses_of_mem_stack ha hp hv hj
        · obtain ⟨user, huser, hslot⟩ := List.mem_filterMap.mp hj
          split at hslot
          · next slot hinsn =>
            rw [Option.some.inj hslot] at hinsn
            exact Expansion.accesses_of_mem_consumers ha (IndexSet.mem_toList.mp huser) hinsn
          · cases hslot
      rw [joinCalls] at h
      split at h
      · next s' _ hs' =>
        rw [← show (joinCall cat a i op callee f s).1 = s' from congrArg Prod.fst hs'] at h
        exact hcall k h
      · next s' hs' =>
        rw [← show (joinCall cat a i op callee f s).1 = s' from congrArg Prod.fst hs'] at h
        exact ih hrest hcall h
    | _ => exact ih hrest hs h

end Seed

namespace Expansion

variable {cat : Catalog} {owner : Text} {m : Method} {a : Analysis} {e : Expansion}

/-- Rounds add nothing but what is pulled by some slot. -/
theorem Settles.mem_cases {s t : IndexSet} {n k : Nat} (h : Settles a s t n)
    (hstore : ∀ v slot, slot ∈ a.storedTo v → 0 ≤ slot) (hk : k ∈ t) :
    k ∈ s ∨ ∃ line ∈ a.reachable, ∃ j, Pulls a line j k := by
  induction h with
  | last => exact mem_growRound_cases hstore hk
  | more _ _ ih =>
    rcases ih hk with hk | hpulls
    · exact mem_growRound_cases hstore hk
    · exact .inr hpulls

/-- Every expanded slot is accessed by the code. -/
theorem accesses_of_solve (ha : Analysis.ofMethod owner m = .ok a) (h : solve cat a = .ok e) {k : Nat}
    (hk : k ∈ e.slots) : m.code.Accesses k := by
  rw [(solve_ok h).slots] at hk
  rcases (settles_close ha _).mem_cases (fun _ _ => Analysis.storedTo_nonneg ha) hk with hk | ⟨line, hline, j, hpulls⟩
  · refine Seed.accesses_of_joinCalls ha (fun _ hp => hp) ?_ hk
    intro j hj
    simp at hj
  · exact hpulls.accesses ha hline

end Expansion

/-! ## Places below a limit -/

/-- All slots that the instruction uses lie below the limit. -/
def Insn.Below (n : Int) (x : Insn) : Prop := ∀ p, x.access? = some p → p.1 + (p.2 : Int) ≤ n

/-- Both words of every expanded slot lie below the limit. -/
def IndexSet.LongsBelow (E : IndexSet) (n : Int) : Prop := ∀ k : Nat, k ∈ E → (k : Int) + 2 ≤ n

/-- The end of what an instruction uses is behind what it accesses. -/
theorem Insn.slotEnd?_eq (x : Insn) : x.slotEnd? = x.access?.map fun p => Slot.up p.1 p.2 := by
  cases x with
  | var op slot => cases ht : op.varType? <;> simp [slotEnd?, access?, ht]
  | _ => rfl

/-- An end below the limit of the slots is not come round. -/
theorem Slot.up_eq {slot : Int} {width : Nat} (h : slot + width < limit) : up slot width = slot + width :=
  if_neg fun hover => absurd h (not_lt.mpr hover.2)

variable {n : Int}

/-- A limit above all accesses of the code is above both words of every expanded slot: the slot is accessed, and only
as a whole long. -/
theorem Expansion.longsBelow_of_solve {cat : Catalog} {owner : Text} {m : Method} {a : Analysis} {e : Expansion}
    (ha : Analysis.ofMethod owner m = .ok a) (h : solve cat a = .ok e)
    (hcode : ∀ p ∈ m.code.listing, p.2.Below n) : e.slots.LongsBelow n := by
  intro k hk
  obtain ⟨id, op, hx⟩ := accesses_of_solve ha h hk
  have hchecked := checkAccess_of_checkInsn (checkInsn_of_check ha (solve_ok h).checked hx)
  have hlong : op.varType? = some .long := by
    rcases (checkAccess_var_ok.mp hchecked).whole (by simpa using hk) with rfl | rfl <;> rfl
  refine hcode _ hx (k, 2) ?_
  rw [Insn.access?, hlong]
  rfl

namespace SlotMap

variable {E : IndexSet} {n : Int}

/-- Places are in the order of the slots. -/
theorem place_le_place (E : IndexSet) {s t : Int} (h : s ≤ t) : place E s ≤ place E t := by
  have := E.countBelow_mono h
  unfold place
  omega

/-- A range is not shorter at its place. -/
theorem place_add_le (E : IndexSet) (s : Int) (width : Nat) : place E s + width ≤ place E (s + width) := by
  have := E.countBelow_mono (show s ≤ s + width by omega)
  unfold place
  omega

/-- All expanded slots lie below the limit and move it. -/
theorem place_limit (h : E.LongsBelow n) : place E n = n + E.toList.length := by
  have hall : E.countBelow n = E.toList.length := by
    rw [IndexSet.countBelow, List.countP_eq_length]
    intro k hk
    have := h k (IndexSet.mem_toList.mp hk)
    simp only [decide_eq_true_eq]
    omega
  rw [place, hall]

/-- The three slots that an expanded slot becomes lie below the place of the limit. -/
theorem first_add_three_le (h : E.LongsBelow n) {slot : Int} (hfirst : (ofSlots E).isFirst slot = true) :
    slot + 3 ≤ place E n := by
  obtain ⟨e, he, rfl⟩ := (isFirst_iff E slot).mp hfirst
  obtain ⟨k, rfl, hk⟩ := (E.contains_iff e).mp he
  exact place_add_three_le E he (h k hk)

/-- What lies below a limit is moved below the place of the limit, if that is a slot. -/
theorem map_add_le (hn : place E n < Slot.limit) {slot : Int} {width : Nat} (h : slot + width ≤ n) :
    (ofSlots E).map slot + width ≤ place E n := by
  have hplace := (place_add_le E slot width).trans (place_le_place E h)
  rw [map_eq_place (by omega)]
  exact hplace

/-- What is below a limit is moved below its place. -/
theorem mapInsn_below (hn : place E n < Slot.limit) {x : Insn} (h : x.Below n) :
    ((ofSlots E).mapInsn x).Below (place E n) := by
  intro p hp
  rw [access?_mapInsn] at hp
  obtain ⟨q, hq, rfl⟩ := Option.map_eq_some_iff.mp hp
  exact map_add_le hn (h q hq)

end SlotMap

/-! ## What the stages put into a code -/

/-- All that the stages put into a code lies below the place of a limit. -/
theorem SlotMap.admits_below {E : IndexSet} (h : E.LongsBelow n) (cat : Catalog) :
    ExpansionContext.Admits ⟨cat, .ofSlots E⟩ (Insn.Below (place E n)) := by
  have hpart : ∀ {slot : Int}, (ofSlots E).isFirst slot = true → ∀ axis : Axis,
      slot + axis.index + 1 ≤ place E n := by
    intro slot hfirst axis
    have := first_add_three_le h hfirst
    cases axis <;> simp only [Axis.index] <;> omega
  constructor
  · intro x hx e he
    cases hx with
    | part h hs axis =>
      rcases h with rfl | rfl
      all_goals
        rw [← Option.some.inj he]
        exact hpart hs axis
    | _ => cases he
  · intro op m itf m' _ e he
    cases he

/-! ## Limits of transformed methods -/

/-- The number of slots that a variable takes; one whose descriptor cannot be read takes one. -/
def LocalVar.width (l : LocalVar) : Nat :=
  match ValueType.parse l.desc with
  | .ok t => t.size
  | .error _ => 1

/-- The end of a variable is behind its slots. -/
theorem LocalVar.slotEnd_eq (l : LocalVar) : l.slotEnd = Slot.up l.slot l.width := by
  rw [slotEnd, width]
  cases ValueType.parse l.desc <;> rfl

/-- The slot limit of a method covers its receiver and its parameters, its variables and all accesses of its code. -/
structure Method.CoversSlots (m : Method) : Prop where
  params : ∀ f, m.type = .ok f → f.size + (if m.isStatic then 0 else 1) ≤ m.maxLocals
  locals : ∀ l ∈ m.locals, l.slot + (l.width : Int) ≤ m.maxLocals
  code : ∀ p ∈ m.code.listing, p.2.Below m.maxLocals

/-- The parts of a variable, or the variable itself, lie below the place of a limit for the variable. -/
theorem LocalVar.expand_below {E : IndexSet} (hE : E.LongsBelow n) (hn : place E n < Slot.limit)
    {l part : LocalVar} (hl : l.slot + (l.width : Int) ≤ n) (hpart : part ∈ l.expand (.ofSlots E)) :
    part.slot + (part.width : Int) ≤ place E n := by
  rw [LocalVar.expand] at hpart
  split at hpart
  · next hexpanded =>
    obtain ⟨axis, -, rfl⟩ := List.mem_map.mp hpart
    obtain ⟨k, hk, hmem⟩ := (E.contains_iff l.slot).mp hexpanded
    have hroom := place_add_three_le E (s := n) hexpanded (hk ▸ hE k hmem)
    have hint : ValueType.parse ValueType.int.desc = .ok .int := by decide +kernel
    have hindex : axis.index ≤ 2 := by cases axis <;> decide
    simp only [width, hint, show ValueType.int.size = 1 from rfl, map_eq_place (E := E) (s := l.slot) (by omega)]
    rw [Slot.up_eq (by omega)]
    omega
  · rw [List.mem_singleton.mp hpart]
    exact map_add_le hn hl

/-- The greatest, where none is greater. -/
theorem foldl_max_of_le {b : Int} {xs : List Int} (h : ∀ x ∈ xs, x ≤ b) : xs.foldl max b = b := by
  induction xs with
  | nil => rfl
  | cons x xs ih =>
    rw [List.foldl_cons, max_eq_left (h x List.mem_cons_self)]
    exact ih fun y hy => h y (List.mem_cons_of_mem _ hy)

namespace Method

variable {cat : Catalog} {owner suffix : Text} {m new : Method} {E : IndexSet} {n : Int}

/-- The code of a method whose accesses lie below a limit is rewritten to one whose accesses lie below the place of
the limit. -/
theorem rewrite_below {a : Analysis} {r : Rewriting} (hlinked : m.code.WellLinked) (hE : E.LongsBelow n)
    (hn : place E n < Slot.limit) (hcode : ∀ p ∈ m.code.listing, p.2.Below n) (h : m.rewrite cat a E = .ok r) :
    ∀ p ∈ r.calls.code.listing, p.2.Below (place E n) := by
  have hQ := admits_below hE cat
  obtain ⟨hmoved, hpatterns, -, hcalls, -, -⟩ := rewrite_ok h
  obtain ⟨hheld, -, -⟩ := apply_holds hlinked hmoved
  have hplaced : ∀ p ∈ ((ofSlots E).apply m.code).code.listing, p.2.Below (place E n) := by
    intro p hp
    rw [hheld.listing_eq] at hp
    obtain ⟨q, hq, rfl⟩ := List.mem_map.mp hp
    exact mapInsn_below hn (hcode q hq)
  have hscan := PatternRun.ofCode_reworks ⟨cat, .ofSlots E⟩ hheld.wellLinked
  rw [hcalls, hpatterns]
  exact (CallRun.ofCode_reworks _ a E hscan.linked).insns hQ (hscan.insns hQ hplaced)

/-- The parameters of the new descriptor lie below the place of a limit for the parameters. -/
theorem size_params_le {f g : MethodType} (hf : m.type = .ok f)
    (hg : g.params = ValueType.expandAll E m.firstParam f.params)
    (hlong : ∀ (i : Nat) (s : Int) (t : ValueType), (m.paramStarts f)[i]? = some s → f.params[i]? = some t →
      E.contains s = true → t = .long) : g.size ≤ f.size + E.toList.length := by
  have hsize : g.size = f.size + growth * (m.paramStarts f).countP E.contains := by
    rw [MethodType.size, hg]
    exact ValueType.sum_size_expandAll hlong
  -- no two parameters start in the same slot
  have hcount : (m.paramStarts f).countP E.contains ≤ E.toList.length := by
    have hnodup : ((m.paramStarts f).filter E.contains).Nodup :=
      ((paramStarts_sorted hf).imp ne_of_lt).filter _
    have hsub : (m.paramStarts f).filter E.contains ⊆ E.toList.map fun (k : Nat) => (k : Int) := by
      intro s hs
      obtain ⟨k, rfl, hk⟩ := (E.contains_iff s).mp (List.mem_filter.mp hs).2
      exact List.mem_map_of_mem (IndexSet.mem_toList.mpr hk)
    rw [List.countP_eq_length_filter]
    exact ((List.subperm_of_subset hnodup hsub).length_le).trans (by simp)
  rw [hsize, show growth = 1 from rfl]
  omega

/-- The new limit is what the variables, the code and the descriptor of the new method ask for, and at least the place
of the old limit. -/
theorem withSignature_limit {s : SlotMap} (h : m.withSignature s suffix = .ok new) :
    new.locals = m.locals.flatMap (LocalVar.expand s) ∧
      new.maxLocals = new.slotEnds.foldl max (s.map m.maxLocals) := by
  rw [withSignature_eq] at h
  obtain ⟨desc, -, h⟩ := except_bind_ok.mp h
  split at h
  · cases h
  · rw [← Except.ok.inj h]
    exact ⟨rfl, rfl⟩

/-- Where the place of a limit that covers a method is a slot, everything in the transformed method lies below. -/
theorem withSignature_below {a : Analysis} {e : Expansion} {r : Rewriting} (hlinked : m.code.WellLinked)
    (hm : m.CoversSlots) (hE : e.slots.LongsBelow m.maxLocals)
    (hn : place e.slots m.maxLocals < Slot.limit) (hr : m.rewrite cat a e.slots = .ok r)
    (hsigned : { m with code := r.calls.code }.withSignature (.ofSlots e.slots) suffix = .ok new) :
    (∀ g, new.type = .ok g → g.size + (if new.isStatic then 0 else 1) ≤ place e.slots m.maxLocals) ∧
      (∀ l ∈ new.locals, l.slot + (l.width : Int) ≤ place e.slots m.maxLocals) ∧
      ∀ p ∈ new.code.listing, p.2.Below (place e.slots m.maxLocals) := by
  obtain ⟨-, hcode, -⟩ := withSignature_ok hsigned
  obtain ⟨hlocals, -⟩ := withSignature_limit hsigned
  obtain ⟨f, g, hf, hg, hstatic, hparams, hlong⟩ := withSignature_layout hsigned
  refine ⟨fun g' hg' => ?_, fun l hl => ?_, ?_⟩
  · obtain rfl := Except.ok.inj (hg.symm.trans hg')
    have hold := hm.params f hf
    have hgrown := size_params_le hf hparams hlong
    rw [hstatic, place_limit hE]
    omega
  · rw [hlocals] at hl
    obtain ⟨old, hold, hl⟩ := List.mem_flatMap.mp hl
    exact LocalVar.expand_below hE hn (hm.locals old hold) hl
  · rw [hcode]
    exact rewrite_below hlinked hE hn hm.code hr

/-- The ends that the limit of a method is taken over lie below a limit for all of it. -/
theorem slotEnds_le (hn : n < Slot.limit) (hparams : ∀ f, m.type = .ok f → f.size + (if m.isStatic then 0 else 1) ≤ n)
    (hlocals : ∀ l ∈ m.locals, l.slot + (l.width : Int) ≤ n) (hcode : ∀ p ∈ m.code.listing, p.2.Below n) :
    ∀ e ∈ m.slotEnds, e ≤ n := by
  intro e he
  rcases List.mem_append.mp he with he | he
  · rcases List.mem_append.mp he with he | he
    · cases hf : m.type with
      | error cause => simp [hf] at he
      | ok f =>
        have hle := hparams f hf
        simp only [hf] at he
        rw [List.mem_singleton.mp he, Slot.up_eq] <;> omega
    · obtain ⟨l, hl, rfl⟩ := List.mem_map.mp he
      have hle := hlocals l hl
      rw [LocalVar.slotEnd_eq, Slot.up_eq] <;> omega
  · obtain ⟨p, hp, hend⟩ := List.mem_filterMap.mp he
    rw [Insn.slotEnd?_eq] at hend
    obtain ⟨q, hq, rfl⟩ := Option.map_eq_some_iff.mp hend
    have hle := hcode p hp q hq
    rw [Slot.up_eq] <;> omega

/-- Let the slot limit of a method be an integer of 64 bits that covers it. If one more for each expanded slot is one
too, that is the limit of the transformed method, and covers it. If not, it comes round, and the limit is the greatest
end of what the transformed method uses. -/
theorem transform_maxLocals {t : Transformed} (hlinked : m.code.WellLinked) (hm : m.CoversSlots)
    (hlimit : m.maxLocals < Slot.limit) (h : m.transform cat owner suffix = .ok t) (hnew : t.method = some new) :
    (m.maxLocals + t.expanded.length < Slot.limit →
      new.maxLocals = m.maxLocals + t.expanded.length ∧ new.CoversSlots) ∧
    (Slot.limit ≤ m.maxLocals + t.expanded.length →
      new.maxLocals = new.slotEnds.foldl max (m.maxLocals + t.expanded.length - 2 * Slot.limit)) := by
  obtain ⟨a, e, r, ha, he, hr, hexpanded, hsigned⟩ := transformSteps_some (transform_ok.mp h) hnew
  have hE := Expansion.longsBelow_of_solve ha he hm.code
  have hplace := place_limit hE
  obtain ⟨-, hends⟩ := withSignature_limit hsigned
  rw [hexpanded, ← hplace]
  constructor
  · intro hn
    obtain ⟨hparams, hlocals, hcode⟩ := withSignature_below hlinked hm hE hn hr hsigned
    have hmax : new.maxLocals = place e.slots m.maxLocals := by
      rw [hends, map_eq_place hn]
      exact foldl_max_of_le (slotEnds_le hn hparams hlocals hcode)
    exact ⟨hmax, hmax ▸ hparams, hmax ▸ hlocals, hmax ▸ hcode⟩
  · intro hover
    rw [hends]
    rcases map_cases e.slots m.maxLocals with heq | ⟨-, -, heq, -⟩
    · exact absurd (lt_of_map_eq_place hlimit heq) (not_lt.mpr hover)
    · rw [heq]

/-- A method that copies its parameter to a variable and passes both on, and whose table names both and has an entry
that cannot be read. -/
def passedTwice : Method :=
  ⟨"m", "(JI)V", ⟨8⟩,
    .ofList [.label, .var .lload 0, .var .lstore 3, .var .lload 0, .call .invokestatic ⟨"Q", "g", "(J)V"⟩ false,
      .var .lload 3, .call .invokestatic ⟨"Q", "g", "(J)V"⟩ false, .iinc 2 1, .plain .returnVoid, .label],
    [⟨"a", "J", [], 0, 0, 9⟩, ⟨"b", "J", [], 3, 0, 9⟩, ⟨"c", "?", [], 4, 0, 9⟩], [], 2, 5⟩

/-- Its limit covers it. -/
theorem passedTwice_covers : passedTwice.CoversSlots where
  params f hf := by
    have htype : passedTwice.type = .ok ⟨[.long, .int], .void⟩ := by decide +kernel
    obtain rfl := Except.ok.inj (htype.symm.trans hf)
    decide
  locals := by decide +kernel
  code p hp e he := by
    have hall : passedTwice.code.listing.all (fun p => p.2.access?.all fun q =>
        decide (q.1 + (q.2 : Int) ≤ passedTwice.maxLocals)) = true := by decide +kernel
    simpa [he] using List.all_eq_true.mp hall p hp

/-- The same method with the greatest limit. -/
def passedWithin : Method := { passedTwice with maxLocals := Slot.limit - 1 }

/-- Its limit covers it, too. -/
theorem passedWithin_covers : passedWithin.CoversSlots where
  params f hf := le_trans (passedTwice_covers.params f hf) (by decide)
  locals l hl := le_trans (passedTwice_covers.locals l hl) (by decide)
  code p hp q hq := le_trans (passedTwice_covers.code p hp q hq) (by decide)

/-- Both the parameter and the variable are expanded, and the limit goes up from five to seven. The greatest limit
comes round, and is seven as well. -/
theorem transform_maxLocals_passedTwice : passedTwice.CoversSlots ∧ passedWithin.CoversSlots ∧
    (∃ t new, passedTwice.transform .oneEntry "C" "" = .ok t ∧ t.method = some new ∧
      t.expanded = [0, 3] ∧ new.desc = "(IIII)V" ∧ new.maxLocals = 7 ∧ new.CoversSlots) ∧
    ∃ t new, passedWithin.transform .oneEntry "C" "" = .ok t ∧ t.method = some new ∧ t.expanded = [0, 3] ∧
      new.maxLocals = new.slotEnds.foldl max (1 - Slot.limit) ∧ new.maxLocals = 7 := by
  refine ⟨passedTwice_covers, passedWithin_covers, ?_, ?_⟩
  · have hruns : ((passedTwice.transform .oneEntry "C" "").toOption.bind fun t =>
        t.method.map fun new => (t.expanded, new.desc)) = some ([0, 3], ("(IIII)V" : Text)) := by decide +kernel
    obtain ⟨t, ht, hsome⟩ := except_ok_of_bind hruns
    obtain ⟨new, hnew, hboth⟩ := Option.map_eq_some_iff.mp hsome
    obtain ⟨hexpanded, hdesc⟩ := Prod.mk.inj hboth
    obtain ⟨hfits, -⟩ :=
      transform_maxLocals (Code.holds_ofList _).wellLinked passedTwice_covers (by decide) ht hnew
    rw [hexpanded] at hfits
    obtain ⟨hlimit, hcovers⟩ := hfits (by decide)
    exact ⟨t, new, ht, hnew, hexpanded, hdesc, hlimit, hcovers⟩
  · have hruns : ((passedWithin.transform .oneEntry "C" "").toOption.bind fun t =>
        t.method.map fun new => (t.expanded, new.maxLocals)) = some ([0, 3], 7) := by decide +kernel
    obtain ⟨t, ht, hsome⟩ := except_ok_of_bind hruns
    obtain ⟨new, hnew, hboth⟩ := Option.map_eq_some_iff.mp hsome
    obtain ⟨hexpanded, hseven⟩ := Prod.mk.inj hboth
    obtain ⟨-, hover⟩ :=
      transform_maxLocals (Code.holds_ofList _).wellLinked passedWithin_covers (by decide) ht hnew
    rw [hexpanded] at hover
    exact ⟨t, new, ht, hnew, hexpanded, hover (by decide), hseven⟩

end Method

end CoordSplit
