import CoordSplit.Proofs.RoleTyping

/-!
# Transformed methods are well typed

A method that is transformed goes through stages: its slots are moved, its patterns are replaced, and its calls are
converted. If a table is right about the method, then each stage leaves a table that is right about its code, and the
new descriptor delivers the parameters where the table expects them. So the new method can be analysed, and its calls
find what they take on the stack (`Method.transform_conforms`).

This needs that converting the calls does not get in the way of what else happens on the stack, that the calls which
the catalog knows are made as they should be, and that no expanded slot below a parameter is a stray.
-/

set_option autoImplicit false

namespace CoordSplit

open Analysis SlotMap

/-! ## What a method is entered with -/

namespace ValueType

variable {slot s : Int} {t : ValueType} {ts : List ValueType}

theorem starts_cons_iff {P : ValueType → Prop} :
    (∃ (i : Nat) (u : ValueType), (starts slot (t :: ts))[i]? = some s ∧ (t :: ts)[i]? = some u ∧ P u) ↔
      slot = s ∧ P t ∨
        ∃ (i : Nat) (u : ValueType), (starts (slot + t.size) ts)[i]? = some s ∧ ts[i]? = some u ∧ P u := by
  constructor
  · rintro ⟨i, u, hs, hu, hP⟩
    cases i with
    | zero =>
      obtain rfl : t = u := by simpa using hu
      exact .inl ⟨by simpa [starts] using hs, hP⟩
    | succ i => exact .inr ⟨i, u, by simpa [starts] using hs, by simpa using hu, hP⟩
  · rintro (⟨rfl, hP⟩ | ⟨i, u, hs, hu, hP⟩)
    · exact ⟨0, t, rfl, rfl, hP⟩
    · exact ⟨i + 1, u, by simpa [starts] using hs, by simpa using hu, hP⟩

/-- What starts in a slot is found there. -/
theorem paramSlots_iff (hts : ∀ t ∈ ts, t ≠ .void) {base : Int} {k : Nat} {κ : Kind} :
    (∃ t, (Method.paramSlots ts)[k]? = some t ∧ t.kind? = some κ) ↔
      ∃ (i : Nat) (t : ValueType), (starts base ts)[i]? = some (base + k) ∧ ts[i]? = some t ∧ t.kind? = some κ := by
  induction ts generalizing base k with
  | nil => simp [Method.paramSlots, starts]
  | cons t ts ih =>
    have hrest := fun (n : Nat) (k : Nat) => @ih (fun u hu => hts u (by simp [hu])) (base + n) k
    have hslots : Method.paramSlots (t :: ts) = (if t.size = 2 then [t, .top] else [t]) ++ Method.paramSlots ts := rfl
    rw [starts_cons_iff, hslots]
    -- nothing starts below the end of the first value but the value itself
    have hlater : ∀ n : Nat, k < n → ¬ ∃ (i : Nat) (u : ValueType), (starts (base + n) ts)[i]? = some (base + k) ∧
        ts[i]? = some u ∧ u.kind? = some κ := by
      rintro n hk ⟨i, u, hs, -⟩
      have := le_of_mem_starts (List.mem_of_getElem? hs)
      omega
    by_cases hwide : t.size = 2
    · rw [if_pos hwide, hwide]
      rcases k with _ | _ | k
      · rw [or_iff_left (hlater 2 (by omega))]
        simp
      · rw [or_iff_left (hlater 2 (by omega))]
        simp [kind?]
      · have hk := hrest 2 k
        rw [show base + ((2 : Nat) : Int) + k = base + ((k + 2 : Nat) : Int) by push_cast; omega] at hk
        rw [← hk, or_iff_right (by push_cast; omega)]
        simp
    · have hone : t.size = 1 := by
        have hpos := size_pos (hts t (by simp))
        have hle := t.size_le_two
        omega
      rw [if_neg hwide, hone]
      cases k with
      | zero =>
        rw [or_iff_left (hlater 1 (by omega))]
        simp
      | succ k =>
        have hk := hrest 1 k
        rw [show base + ((1 : Nat) : Int) + k = base + ((k + 1 : Nat) : Int) by push_cast; omega] at hk
        rw [← hk, or_iff_right (by push_cast; omega)]
        simp

/-- Where the next parameter starts. -/
theorem starts_succ {i : Nat} (hs : (starts slot ts)[i]? = some s)
    (ht : ts[i]? = some t) (hi : i + 1 < ts.length) : (starts slot ts)[i + 1]? = some (s + t.size) := by
  induction ts generalizing slot i with
  | nil => cases ht
  | cons u ts ih =>
    cases i with
    | zero =>
      obtain rfl : slot = s := by simpa [starts] using hs
      obtain rfl : u = t := by simpa using ht
      cases ts with
      | nil => simp at hi
      | cons => rfl
    | succ i => exact ih (by simpa [starts] using hs) (by simpa using ht) (by simpa using hi)

/-- The types that take the place of the one which starts in slot `s`, when the types are expanded. -/
theorem getElem?_expandAll {E : IndexSet} {j : Nat} (hs : (starts slot ts)[j]? = some s) (ht : ts[j]? = some t) :
    ∀ k < partCount E s, (expandAll E slot ts)[(((starts slot ts).map (partCount E)).take j).sum + k]? =
      some (if E.contains s then .int else t) := by
  induction ts generalizing slot j with
  | nil => cases ht
  | cons u ts ih =>
    cases j with
    | zero =>
      obtain rfl : slot = s := by simpa [starts] using hs
      obtain rfl : u = t := by simpa using ht
      intro k hk
      rw [partCount] at hk
      rw [expandAll]
      split at hk
      · next he =>
        rw [if_pos he, if_pos he]
        obtain rfl | rfl | rfl : k = 0 ∨ k = 1 ∨ k = 2 := by omega
        all_goals simp
      · next he =>
        rw [if_neg he, if_neg he]
        obtain rfl : k = 0 := by omega
        simp
    | succ j =>
      intro k hk
      rw [← ih (j := j) (by simpa [starts] using hs) (by simpa using ht) k hk, starts, List.map_cons,
        List.take_succ_cons, List.sum_cons, expandAll, partCount]
      split
      · rw [show ∀ n, 3 + n + k = n + k + 1 + 1 + 1 by omega]
        simp only [List.getElem?_cons_succ]
      · rw [show ∀ n, 1 + n + k = n + k + 1 by omega, List.getElem?_cons_succ]

end ValueType

namespace Method

open ValueType

variable {m new : Method} {owner : Text} {f g : MethodType} {E : IndexSet}

/-- A method is entered with its receiver, unless it is static, and its parameters. -/
theorem entry_iff (hf : m.type = .ok f) {params : List ValueType} (hparams : m.params owner = .ok params) {j : Int}
    {κ : Kind} : (FrameType.entry params).locals j κ ↔ m.isStatic = false ∧ j = 0 ∧ κ = .ref ∨
      ∃ (i : Nat) (t : ValueType), (m.paramStarts f)[i]? = some j ∧ f.params[i]? = some t ∧ t.kind? = some κ := by
  have hvoid : ∀ t ∈ f.params, t ≠ .void := fun t ht => ((MethodType.writable_of_parse hf).params t ht).2
  rw [Method.params, hf] at hparams
  obtain rfl := Except.ok.inj hparams
  have hslots : ∀ j : Int, (∃ (k : Nat) (t : ValueType), j = m.firstParam + k ∧ (paramSlots f.params)[k]? = some t ∧
      t.kind? = some κ) ↔
      ∃ (i : Nat) (t : ValueType), (m.paramStarts f)[i]? = some j ∧ f.params[i]? = some t ∧ t.kind? = some κ := by
    intro j
    constructor
    · rintro ⟨k, t, rfl, h⟩
      exact (paramSlots_iff hvoid).mp ⟨t, h⟩
    · rintro ⟨i, t, hi, h⟩
      obtain ⟨k, hk⟩ := Int.le.dest (le_of_mem_starts (List.mem_of_getElem? hi))
      rw [← hk] at hi
      obtain ⟨u, hu⟩ := (paramSlots_iff hvoid).mpr ⟨i, t, hi, h⟩
      exact ⟨k, u, hk.symm, hu⟩
  rw [← hslots, FrameType.entry, firstParam]
  cases m.isStatic with
  | true => simp
  | false =>
    constructor
    · rintro ⟨k, t, rfl, hk, hκ⟩
      cases k with
      | zero =>
        obtain rfl : ValueType.object owner = t := by simpa using hk
        exact .inl ⟨rfl, rfl, (Option.some.inj hκ).symm⟩
      | succ k => exact .inr ⟨k, t, by simp only [Bool.false_eq_true, if_false]; push_cast; omega, by simpa using hk, hκ⟩
    · rintro (⟨-, rfl, rfl⟩ | ⟨k, t, rfl, hk, hκ⟩)
      · exact ⟨0, .object owner, rfl, rfl, rfl⟩
      · exact ⟨k + 1, t, by simp only [Bool.false_eq_true, if_false]; push_cast; omega, by simpa using hk, hκ⟩

/-- What a new descriptor delivers is what was delivered before, with the slots moved, unless there are strays. -/
theorem entry_moved (hf : m.type = .ok f) (hg : new.type = .ok g) (hstatic : new.isStatic = m.isStatic)
    (hparams : g.params = expandAll E m.firstParam f.params)
    (hlong : ∀ (i : Nat) (e : Int) (t : ValueType), (m.paramStarts f)[i]? = some e → f.params[i]? = some t →
      E.contains e = true → t = .long)
    (hfree : ∀ s ∈ m.paramStarts f, m.straysBelow f E s = []) {params params' : List ValueType}
    (hm : m.params owner = .ok params) (hnew : new.params owner = .ok params') :
    (FrameType.entry params').Refines ((FrameType.entry params).move E) := by
  refine ⟨rfl, fun j κ hj => ?_⟩
  rw [entry_iff hg hnew]
  have hbase : new.firstParam = m.firstParam := by simp only [firstParam, hstatic]
  have hstart : ∀ (i : Nat) (s : Int), (m.paramStarts f)[i]? = some s →
      (new.paramStarts g)[(((m.paramStarts f).map (partCount E)).take i).sum]? = some (place E s) := by
    intro i s hs
    have hcount := countBelow_eq_add_strays hf E hs
    rw [hfree s (List.mem_of_getElem? hs), List.length_nil, Nat.add_zero] at hcount
    have h := @starts_expandAll E m.firstParam m.firstParam s f.params i hlong hs
    rw [paramStarts, hbase, hparams, paramStarts, h, place, hcount, paramStarts]
    congr 1
    omega
  rcases hj with ⟨e, κ', he, hL, hwide, hle, hlt, rfl⟩ | ⟨s, hs, hL, rfl⟩
  · -- an expanded parameter is delivered as three ints
    rcases (entry_iff hf hm).mp hL with ⟨-, -, rfl⟩ | ⟨i, t, hi, ht, -⟩
    · cases hwide
    · have htypes := getElem?_expandAll (E := E) hi ht
      rw [partCount, if_pos he, if_pos he, ← hparams] at htypes
      have hint : ∀ k < 3, g.params[(((m.paramStarts f).map (partCount E)).take i).sum + k]? = some .int := htypes
      have h₀ := hstart i e hi
      have hnext : ∀ n s, (new.paramStarts g)[n]? = some s → g.params[n]? = some .int →
          g.params[n + 1]? = some .int → (new.paramStarts g)[n + 1]? = some (s + 1) := fun n s hs hn hn' =>
        starts_succ hs hn (List.getElem?_eq_some_iff.mp hn').1
      have h₁ := hnext _ _ h₀ (hint 0 (by omega)) (hint 1 (by omega))
      have h₂ := hnext _ _ h₁ (hint 1 (by omega)) (hint 2 (by omega))
      obtain rfl | rfl | rfl : j = place E e ∨ j = place E e + 1 ∨ j = place E e + 1 + 1 := by
        omega
      · exact .inr ⟨_, .int, h₀, hint 0 (by omega), rfl⟩
      · exact .inr ⟨_, .int, h₁, hint 1 (by omega), rfl⟩
      · exact .inr ⟨_, .int, h₂, hint 2 (by omega), rfl⟩
  · rcases (entry_iff hf hm).mp hL with ⟨hinstance, rfl, rfl⟩ | ⟨i, t, hi, ht, hκ⟩
    · exact .inl ⟨hstatic.trans hinstance, place_of_nonpos E (le_refl 0), rfl⟩
    · refine .inr ⟨_, t, hstart i s hi, ?_, hκ⟩
      have htype := getElem?_expandAll (E := E) hi ht 0 (by rw [partCount]; split <;> omega)
      rwa [Nat.add_zero, hs, ← hparams] at htype

end Method

/-! ## Producers push longs -/

theorem Insn.pushesLong_lload (j : Int) : (Insn.var .lload j).PushesLong := by
  intro first ks L ks' L' h
  cases h with
  | regular hg => cases hg
  | load ht _ hκ =>
    obtain rfl := Option.some.inj ht
    obtain rfl : Kind.long = _ := Option.some.inj hκ
    rfl
  | store _ hop => cases hop
  | loadParts => rfl

variable {op : Opcode} {c : ExpansionContext}

theorem Insn.pushesLong_call {m : Member} {itf : Bool} {t : MethodType}
    (ht : MethodType.parse m.desc = .ok t) (hresult : t.result = .long) : (Insn.call op m itf).PushesLong := by
  intro first ks L ks' L' h
  obtain ⟨-, -, -, hgives⟩ := h.call ht
  rw [hresult] at hgives
  exact (map_some_injective (show [Kind.long].map some = ks'.map some from hgives)).symm

/-- What can be changed to push the parts of a coordinate pushes a long, also before its slot was moved. -/
theorem ExpansionContext.pushesLong_of_emitter (hcat : c.catalog.Shaped) {s : SlotMap} {x : Insn}
    (hx : c.isEmitter (s.mapInsn x) = true) : x.PushesLong ∧ ∀ op, x ≠ .plain op := by
  rw [isEmitter.eq_def, Bool.or_eq_true] at hx
  rcases hx with hx | hx
  · rcases Machine.isOperand_iff.mp hx with ⟨j, hx, -⟩ | hx
    · obtain ⟨i, rfl⟩ := exists_of_mapInsn_var hx
      exact ⟨Insn.pushesLong_lload i, by simp⟩
    · obtain rfl := eq_of_mapInsn hx (by simp) (by simp)
      refine ⟨fun first ks L ks' L' h => ?_, by simp⟩
      obtain ⟨-, -, -, hgives⟩ := h.of_signature rfl
      exact (map_some_injective (show [Kind.long].map some = ks'.map some from hgives)).symm
  · split at hx
    · next op m itf hcall =>
      obtain rfl := eq_of_mapInsn hcall (by simp) (by simp)
      split at hx
      · next entry he =>
        obtain ⟨hkey, hmem⟩ := Catalog.lookup_key he
        have hshape := hcat.entries entry hmem
        obtain ⟨t, -, ht, -, -, hresult, -⟩ := hshape.type
        rw [hkey] at ht
        refine ⟨Insn.pushesLong_call ht (hresult (hshape.returnsPacked_of_isProducer ?_)), by simp⟩
        exact (Bool.and_eq_true_iff.mp hx).1
      · cases hx
    · cases hx

/-- What becomes of a call uses no slots. -/
theorem ExpansionContext.Edits.signature? {expanded : IndexSet} {m : Member}
    {itf : Bool} {f : Frame} {e : CallEdit} (h : c.Edits expanded op m itf f e) (hop : op.falls = true) :
    ∃ g, e.reads.signature? = some g := by
  cases h with
  | unpack => exact ⟨_, rfl⟩
  | @args _ _ t g target _ _ _ _ _ htype hsplit htarget =>
    have hparse : MethodType.parse target.desc = .ok g := by
      rw [htarget]
      exact MethodType.parse_desc ((MethodType.writable_of_parse htype).split hsplit)
    simp [Insn.signature?, hparse, hop]

/-! ## The edits of a method -/

namespace Method

/-- The code of a method with its slots moved and its patterns replaced. -/
def scanned (cat : Catalog) (slots : IndexSet) (m : Method) : Code :=
  (PatternRun.ofCode ⟨cat, .ofSlots slots⟩ ((ofSlots slots).apply m.code).code).code

/-- The edits that converting the calls of an analysed method makes. -/
def callEdits (cat : Catalog) (a : Analysis) (slots : IndexSet) (m : Method) : List CallEdit :=
  CallRun.edits ⟨cat, .ofSlots slots⟩ a slots a.reachable (m.scanned cat slots)

/-- The code of a method can be rewritten: its references are to labels, the calls that the catalog knows are made as
they should be, and no slot is refused. -/
structure Rewritable (cat : Catalog) (slots : IndexSet) (m : Method) : Prop where
  shaped : cat.Shaped
  linked : m.code.WellLinked
  labels : Labelled m.handlers m.code.listing
  calls : m.code.CallsFit cat
  moved : ((ofSlots slots).apply m.code).refused = none

namespace Rewritable

open CallEdit

variable {cat : Catalog} {E : IndexSet} {m : Method} {owner : Text} {a : Analysis}

/-- No edit meets a producer twice. -/
theorem producers_nodup (hsep : a.Separates (m.callEdits cat a E)) :
    ∀ e ∈ m.callEdits cat a E, e.producers.Nodup :=
  fun e he => hsep.producers_nodup he (CallRun.taken_sublist_of_mem _ _ e he)

variable (h : m.Rewritable cat E)

include h

theorem branches : m.code.BranchesToLabels := by
  intro x hx t ht
  obtain ⟨p, hp, rfl⟩ := List.mem_map.mp hx
  exact h.labels t (.inl ⟨p, hp, ht⟩)

theorem ready : ScanReady ⟨cat, .ofSlots E⟩ E ((ofSlots E).apply m.code).code 0 :=
  .of_moved h.linked h.branches h.calls h.moved

theorem renews : ((ofSlots E).apply m.code).code.Renews (m.scanned cat E) :=
  PatternRun.scan_renews (r := ⟨_, [], none⟩) h.shaped _ h.ready

theorem size_le : m.code.nodes.size ≤ (m.scanned cat E).nodes.size :=
  (apply_holds h.linked h.moved).2.1 ▸ h.renews.size

/-- What is left of the code of a method is its code with the slots moved. -/
theorem line_of_scanned {id : InsnId} {y : Insn} (hid : id < (m.code.nodes.size : Int))
    (hy : (m.scanned cat E).state? id = some (y, false)) :
    ∃ x, (id, x) ∈ m.code.listing ∧ y = (ofSlots E).mapInsn x := by
  obtain ⟨hholds, hsize, -⟩ := apply_holds h.linked h.moved
  obtain ⟨pre, post, hscanned⟩ := h.renews.linked.exists_split hy
  have hmem : (id, y) ∈ (m.scanned cat E).listing := by simp [hscanned.listing_eq]
  rcases h.renews.lines _ hmem with hline | hge
  · rw [hholds.listing_eq] at hline
    obtain ⟨⟨id', x⟩, hx, heq⟩ := List.mem_map.mp hline
    obtain ⟨rfl, rfl⟩ := Prod.mk.inj heq
    exact ⟨x, hx, rfl⟩
  · rw [hsize] at hge
    exact absurd hid (not_lt.mpr hge)

theorem callsFit : (m.scanned cat E).CallsFitBelow m.code.nodes.size cat := by
  intro id op member itf hid hstate
  obtain ⟨x, hx, heq⟩ := h.line_of_scanned hid hstate
  obtain rfl := eq_of_mapInsn heq.symm nofun nofun
  exact h.calls op member itf (List.mem_map_of_mem hx)

theorem moved_labels :
    Labelled m.handlers (m.code.listing.map fun p => (p.1, (ofSlots E).mapInsn p.2)) := by
  intro q hq
  have hrefers : CoordSplit.Refers m.handlers m.code.listing q := by
    rcases hq with ⟨p, hp, hq⟩ | hq
    · obtain ⟨⟨id, x⟩, hx, rfl⟩ := List.mem_map.mp hp
      have htargets : ((ofSlots E).mapInsn x).targets = x.targets := by cases x <;> rfl
      rw [htargets] at hq
      exact .inl ⟨_, hx, hq⟩
    · exact .inr hq
  exact List.mem_map.mpr ⟨_, h.labels q hrefers, rfl⟩

variable (ha : ofMethod owner m = .ok a)

include ha

/-- The lines that the analysis reached are about the code of the method. -/
theorem below : CallRun.Below m.code.nodes.size a.reachable := by
  rintro ⟨⟨id, x⟩, f⟩ hmem
  refine ⟨?_, ?_⟩
  · exact (h.linked.id_lt (List.mem_map_of_mem (step_of_mem_reachable ha hmem).1)).2
  · intro v hv p hp
    exact (h.linked.id_lt ((stack_made ha h.linked hmem hv).mem p hp)).2

/-- What is there after the scan, and was reached, is what it was, with its slots moved. -/
theorem scanned_eq {id : InsnId} {x y : Insn} {f : Frame} (hmem : ((id, x), f) ∈ a.reachable)
    (hy : (m.scanned cat E).state? id = some (y, false)) :
    y = (ofSlots E).mapInsn x := by
  obtain ⟨x', hx', rfl⟩ := h.line_of_scanned (h.below ha _ hmem).1 hy
  have hx := (Code.nonneg_of_mem_listing (step_of_mem_reachable ha hmem).1).2
  rw [Option.some.inj (hx.symm.trans (Code.nonneg_of_mem_listing hx').2)]

/-- An empty code stays empty. -/
theorem listing_ne_nil
    (hne : (CallRun.ofCode ⟨cat, .ofSlots E⟩ a E (m.scanned cat E)).code.listing ≠ []) : m.code.listing ≠ [] := by
  intro hnil
  apply hne
  have hreachable : a.reachable = [] := by
    apply List.eq_nil_iff_forall_not_mem.mpr
    rintro ⟨⟨id, x⟩, f⟩ hmem
    have hline := (step_of_mem_reachable ha hmem).1
    simp [hnil] at hline
  have hmoved : ((ofSlots E).apply m.code).code.listing = [] := by
    rw [(apply_holds h.linked h.moved).1.listing_eq, hnil]
    rfl
  have hscanned : m.scanned cat E = ((ofSlots E).apply m.code).code := by
    rw [scanned, PatternRun.ofCode, PatternRun.scan]
    simp [hmoved, Pattern.applyNext]
  rw [CallRun.ofCode, hreachable, hscanned]
  exact hmoved

variable (hsep : a.Separates (m.callEdits cat a E))

include hsep

theorem sound : ∀ e ∈ m.callEdits cat a E,
    CallRun.Sound ⟨cat, .ofSlots E⟩ a E a.reachable (m.scanned cat E) (m.callEdits cat a E) e :=
  CallRun.edits_sound h.shaped h.renews.linked (h.below ha) h.size_le (reachable_nodup ha h.linked)
    (producers_nodup hsep)

/-- The edits fit the analysis. -/
theorem prepared : a.Prepared owner m ⟨cat, .ofSlots E⟩ E (m.callEdits cat a E) := by
  have hsound := h.sound ha hsep
  have hnodup : ((m.callEdits cat a E).map CallEdit.call).Nodup :=
    (reachable_nodup ha h.linked).sublist (CallRun.edits_calls _ _)
  have hcall : ∀ e ∈ m.callEdits cat a E, ∃ op member itf f, ((e.call, .call op member itf), f) ∈ a.reachable ∧
      ExpansionContext.Edits ⟨cat, .ofSlots E⟩ E op member itf f e := by
    intro e he
    obtain ⟨op, member, itf, x, f, hmem, hstate, hedits⟩ := (hsound e he).call
    obtain rfl := eq_of_mapInsn (h.scanned_eq ha hmem hstate).symm nofun nofun
    exact ⟨op, member, itf, f, hmem, hedits⟩
  refine ⟨⟨hnodup, hcall, ?_, fun e he => (hsound e he).user, ?_⟩, hsep, ha, h.linked, h.shaped⟩
  · intro e _ op member itf f hmem
    exact h.calls op member itf (List.mem_map_of_mem (step_of_mem_reachable ha hmem).1)
  · intro e he p hp x f hmem
    obtain ⟨y, hemitter, hstate | ⟨e', he', rfl, rfl⟩⟩ := (hsound e he).emitter p hp
    · -- a producer that is there before the conversion is not converted itself
      obtain rfl := h.scanned_eq ha hmem hstate
      obtain ⟨hpushes, hplain⟩ := ExpansionContext.pushesLong_of_emitter h.shaped hemitter
      have hreading : readingOf (m.callEdits cat a E) p = none := by
        apply readingOf_eq_none
        rintro e' he' rfl
        obtain ⟨op, member, itf, _, _, -, hcalled, hedits⟩ := (hsound e' he').call
        rw [hcalled] at hstate
        rw [← (Prod.mk.inj (Option.some.inj hstate)).1, hedits.not_emitter h.shaped] at hemitter
        cases hemitter
      rw [hreading]
      exact ⟨hplain, hpushes⟩
    · -- one that was converted is a call that packs what it takes
      obtain ⟨op, member, itf, g, hmem', hedits⟩ := hcall e' he'
      have hx := reachable_unique ha h.linked hmem hmem'
      rcases hedits.reads_eq with ⟨hreads, -⟩ | ⟨target, hreads⟩
      · rw [hreads] at hemitter
        cases hemitter
      · rw [readingOf_eq hnodup he', hreads, hx.1]
        rw [hreads] at hemitter
        refine ⟨by simp, (ExpansionContext.pushesLong_of_emitter (s := .ofSlots E) h.shaped hemitter).1⟩

/-- Only what is there after the scan has a role. -/
theorem role_placed (id : InsnId) : roleOf (m.callEdits cat a E) id = .plain ∨
      id ∈ (m.scanned cat E).listing.map Prod.fst ∧ id < (m.code.nodes.size : Int) := by
  have hsound := h.sound ha hsep
  have hplaced : ∀ {id x}, (m.scanned cat E).state? id = some (x, false) →
      id ∈ (m.scanned cat E).listing.map Prod.fst :=
    fun hx => (h.renews.linked.isLive_iff _).mp (Code.isLive_of_state? hx)
  have hcall : ∀ e ∈ m.callEdits cat a E, e.call ∈ (m.scanned cat E).listing.map Prod.fst := by
    intro e he
    obtain ⟨_, _, _, _, _, -, hstate, -⟩ := (hsound e he).call
    exact hplaced hstate
  cases hreading : readingOf (m.callEdits cat a E) id with
  | some y =>
    obtain ⟨e, he, rfl, -⟩ := exists_of_readingOf hreading
    exact .inr ⟨hcall e he, ((hsound e he).below (h.below ha)).1⟩
  | none =>
    cases hpart : partOf (m.callEdits cat a E) id with
    | none => exact .inl (by rw [roleOf, hreading, hpart]; rfl)
    | some part =>
      obtain ⟨e, he, hp, -⟩ := exists_of_partOf hpart
      refine .inr ⟨?_, ((hsound e he).below (h.below ha)).2 id hp⟩
      obtain ⟨y, -, hstate | ⟨e', he', rfl, -⟩⟩ := (hsound e he).emitter id hp
      · exact hplaced hstate
      · exact hcall e' he'

variable {T : TypeTable} (hT : Typed (fun _ => KindStep fun _ => false) m.handlers m.code.listing T)
  (hfits : a.FitsTable T) (hslots : ∀ p ∈ a.reachable, ∀ s, p.1.2.slot? = some s → place E s < Slot.limit)

include hT hfits hslots

/-- After the scan the code is typed with the roles that the edits give to its lines. -/
theorem staged :
    Staged ⟨cat, .ofSlots E⟩ m.handlers
      (((T.shaped a (partOf (m.callEdits cat a E))).move E).Continues
        (m.code.listing.map fun p => (p.1, (ofSlots E).mapInsn p.2)))
      (roleOf (m.callEdits cat a E)) (m.scanned cat E) := by
  obtain ⟨hholds, hsize, haccess⟩ := apply_holds h.linked h.moved
  have hprepared := h.prepared ha hsep
  have hslotless : ∀ id, (roleOf (m.callEdits cat a E) id).Slotless := by
    intro id y hy
    obtain ⟨e, he, rfl, rfl⟩ := exists_of_readingOf hy
    obtain ⟨op, member, itf, f, hmem, hedits⟩ := hprepared.edited.call e he
    obtain ⟨t, ht, -⟩ := hfits _ _ _ hmem
    obtain ⟨pre, post, hlisting⟩ := List.append_of_mem (step_of_mem_reachable ha hmem).1
    obtain ⟨t', hstep, -⟩ := hT.line pre _ _ post hlisting t ht
    exact hedits.signature? hstep.falls
  have hplaces : ∀ p ∈ m.code.listing, ∀ t, T.shaped a (partOf (m.callEdits cat a E)) p.1 = some t →
      ∀ s, p.2.slot? = some s → place E s < Slot.limit := by
    intro p hp t ht
    obtain ⟨f, -, hframe, -⟩ := TypeTable.shaped_eq_some_iff.mp ht
    obtain ⟨k, hk⟩ := List.getElem?_of_mem hp
    exact hslots _ (mem_reachable_of_known ha hk (known_of_frame? ha h.linked hk hframe))
  have hmoved := Typed.moved (E := E) (hprepared.typed hT hfits)
    (fun p hp t ht => Insn.movable_of_checkAccess (haccess p hp) (hplaces p hp t ht)) hslotless
  have hlabels := h.moved_labels
  rw [← hholds.listing_eq] at hmoved hlabels ⊢
  have hplaced := h.role_placed ha hsep
  obtain ⟨T', hT', hlabels', hentry⟩ := Typed.scan (c := ⟨cat, .ofSlots E⟩) (r := ⟨_, [], none⟩) h.shaped rfl _ h.ready
    hmoved hlabels fun id => by rw [hsize]; exact hplaced id
  refine ⟨h.renews.linked, hlabels', ?_, T', hT', hentry⟩
  intro id hid
  rcases hplaced id with hplain | ⟨-, hlt⟩
  · exact hplain
  · exact absurd hlt (not_lt.mpr (le_trans (by exact_mod_cast h.size_le) hid))

/-- After the calls have been converted the code is typed as it is. -/
theorem converted (hok : (CallRun.ofCode ⟨cat, .ofSlots E⟩ a E (m.scanned cat E)).failed = none) :
    Staged ⟨cat, .ofSlots E⟩ m.handlers
      (((T.shaped a (partOf (m.callEdits cat a E))).move E).Continues
        (m.code.listing.map fun p => (p.1, (ofSlots E).mapInsn p.2)))
      (fun _ => .plain) (CallRun.ofCode ⟨cat, .ofSlots E⟩ a E (m.scanned cat E)).code :=
  (h.staged ha hsep hT hfits hslots).convertAll h.shaped (h.below ha) (reachable_nodup ha h.linked) h.size_le
    h.callsFit (producers_nodup hsep) 0 hok

end Rewritable

end Method

/-! ## The new method -/

/-- Where nothing takes an expanded slot for one value, the rules for packed slots are not used. -/
theorem KindStep.of_unpacked {first : Int → Bool} {x : Insn} {t t' : FrameType} (h : KindStep first x t t')
    (hx : ∀ op j, x = .var op j → op = .lload ∨ op = .lstore → first j = false) : KindStep (fun _ => false) x t t' := by
  obtain ⟨ks, ks', rest, hks, hks', htyping⟩ := h
  refine ⟨ks, ks', rest, hks, hks', ?_⟩
  generalize t.locals = L, t'.locals = L' at htyping
  cases htyping with
  | regular hg htakes hcall hgives => exact .regular hg htakes hcall hgives
  | drop hop => exact .drop hop
  | move hmove => exact .move hmove
  | load ht hop hκ hj hwide _ => exact .load ht hop hκ hj hwide fun _ => rfl
  | store ht hop hκ hwide hj _ => exact .store ht hop hκ hwide hj fun _ => rfl
  | loadParts hfirst =>
    rw [hx .lload _ rfl (.inl rfl)] at hfirst
    cases hfirst
  | storeParts hfirst =>
    rw [hx .lstore _ rfl (.inr rfl)] at hfirst
    cases hfirst
  | increment hj => exact .increment hj

theorem Leftover.not_first {s : SlotMap} {code : Code} (h : Leftover.find? s code = none) {id : InsnId}
    {j : Int} (hmem : (id, .var op j) ∈ code.listing) (hop : op = .lload ∨ op = .lstore) : s.isFirst j = false := by
  have hnone := List.findSome?_eq_none_iff.mp h _ hmem
  cases hfirst : s.isFirst j with
  | false => rfl
  | true => simp [hop, hfirst] at hnone

/-- A code in which every line is what it is, and nothing takes an expanded slot for one value, is typed. -/
theorem Staged.unpacked {hs : List Handler} {Entry : FrameType → Prop} {code : Code}
    (h : Staged c hs Entry (fun _ => .plain) code) (hleft : Leftover.find? c.slots code = none) :
    ∃ T, Typed (fun _ => KindStep fun _ => false) hs code.listing T ∧ ∀ t, Entry t → T.Continues code.listing t := by
  obtain ⟨T, hT, hentry⟩ := h.typed
  refine ⟨T, ⟨hT.support, ?_⟩, hentry⟩
  intro pre id x post hlisting t ht
  obtain ⟨t', hrule, hrest⟩ := hT.line pre id x post hlisting t ht
  refine ⟨t', KindStep.of_unpacked hrule ?_, hrest⟩
  rintro op j rfl hop
  have hmem : (id, Insn.var op j) ∈ code.listing := by simp [hlisting]
  exact Leftover.not_first hleft hmem hop

/-- The ranges of handlers start at labels of the code. -/
theorem Labelled.starts {hs : List Handler} {ls : List (InsnId × Insn)} (h : Labelled hs ls) :
    ∀ e ∈ hs, e.start ∈ ls.map Prod.fst :=
  fun e he => List.mem_map_of_mem (h e.start (.inr ⟨e, he, .inl rfl⟩))

namespace Method

variable {cat : Catalog} {owner suffix : Text} {m new : Method} {t : Transformed} {T : TypeTable}

/-- What the new descriptor says of the parameters. -/
theorem withSignature_layout {E : IndexSet} {code : Code}
    (h : { m with code := code }.withSignature (.ofSlots E) suffix = .ok new) :
    ∃ f g, m.type = .ok f ∧ new.type = .ok g ∧ new.isStatic = m.isStatic ∧
      g.params = ValueType.expandAll E m.firstParam f.params ∧
      ∀ (i : Nat) (e : Int) (t : ValueType), (m.paramStarts f)[i]? = some e → f.params[i]? = some t →
        E.contains e = true → t = .long := by
  obtain ⟨hdesc, -, -, haccess⟩ := withSignature_ok h
  obtain ⟨f, g, indices, hf, hindices, hsplit, hgdesc⟩ := expandedDesc_ok hdesc
  obtain ⟨-, hparams, hlong⟩ := expandedParams_ok hindices
  refine ⟨f, g, hf, ?_, by rw [isStatic, haccess]; rfl, (MethodType.split_params hsplit).trans hparams, hlong⟩
  rw [type, hgdesc]
  exact MethodType.parse_desc ((MethodType.writable_of_parse hf).split hsplit)

/-- Where a new method comes from. -/
theorem transform_some (ht : m.transform cat owner suffix = .ok t) (hnew : t.method = some new) :
    ∃ a e, ofMethod owner m = .ok a ∧ Expansion.solve cat a = .ok e ∧ t.expanded = e.slots.toList ∧
      ((ofSlots e.slots).apply m.code).refused = none ∧
      (CallRun.ofCode ⟨cat, .ofSlots e.slots⟩ a e.slots (m.scanned cat e.slots)).failed = none ∧
      new.code = (CallRun.ofCode ⟨cat, .ofSlots e.slots⟩ a e.slots (m.scanned cat e.slots)).code ∧
      Leftover.find? (.ofSlots e.slots) new.code = none ∧ new.handlers = m.handlers ∧
      { m with code := new.code }.withSignature (.ofSlots e.slots) (suffixOrDefault suffix) = .ok new := by
  obtain ⟨a, e, r, ha, he, hr, hexpanded, hsig⟩ := transformSteps_some (transform_ok.mp ht) hnew
  obtain ⟨hmoved, hpatterns, -, hrun, hok, hleft⟩ := rewrite_ok hr
  obtain ⟨-, hcode, hhandlers, -⟩ := withSignature_ok hsig
  have hcalls : r.calls = CallRun.ofCode ⟨cat, .ofSlots e.slots⟩ a e.slots (m.scanned cat e.slots) := by
    rw [hrun, hpatterns]
    rfl
  simp only at hcode hhandlers
  exact ⟨a, e, ha, he, hexpanded, hmoved, hcalls ▸ hok, hcalls ▸ hcode, by rwa [hcode], hhandlers, by rwa [hcode]⟩

/-- A table that is right about a method gives one that is right about the new method. -/
theorem transform_verifies (hcat : cat.Shaped) (hlinked : m.code.WellLinked)
    (hlabels : Labelled m.handlers m.code.listing) (hcalls : m.code.CallsFit cat) (hT : m.Verifies owner T)
    (hsep : ∀ a e, ofMethod owner m = .ok a → Expansion.solve cat a = .ok e →
      a.Separates (m.callEdits cat a e.slots))
    (hfree : ∀ f, m.type = .ok f → ∀ s ∈ m.paramStarts f, ∀ e ∈ t.expanded, (e : Int) < s → (e : Int) ∈ m.paramStarts f)
    (hslots : ∀ a, ofMethod owner m = .ok a → ∀ p ∈ a.reachable, ∀ s, p.1.2.slot? = some s →
      s + t.expanded.length < Slot.limit)
    (ht : m.transform cat owner suffix = .ok t) (hnew : t.method = some new) :
    new.code.WellLinked ∧ Labelled new.handlers new.code.listing ∧ ∃ T', new.Verifies owner T' := by
  obtain ⟨a, e, ha, he, hexpanded, hmoved, hok, hcode, hleft, hhandlers, hsig⟩ := transform_some ht hnew
  have hrewritable : m.Rewritable cat e.slots := ⟨hcat, hlinked, hlabels, hcalls, hmoved⟩
  obtain ⟨a', ha', -, hfits⟩ := hT.analysis hlinked hlabels.starts
  obtain rfl : a = a' := Except.ok.inj (ha.symm.trans ha')
  have hseparates := hsep a e ha he
  have hplaces : ∀ p ∈ a.reachable, ∀ s, p.1.2.slot? = some s → place e.slots s < Slot.limit := by
    intro p hp s hs
    have hlt := hslots a ha p hp s hs
    have hcount : e.slots.countBelow s ≤ e.slots.toList.length := List.countP_le_length
    rw [hexpanded] at hlt
    rw [place]
    omega
  have hstaged := hrewritable.converted ha hseparates hT.typed hfits hplaces hok
  rw [← hcode, ← hhandlers] at hstaged
  obtain ⟨T', hT', hcontinues⟩ := hstaged.unpacked hleft
  refine ⟨hstaged.linked, hstaged.labels, T', hT', ?_⟩
  -- what the new descriptor delivers is what the table expects
  obtain ⟨f, g, hf, hg, hstatic, hparams, hlong⟩ := withSignature_layout hsig
  obtain ⟨params, hm, hentry⟩ := hT.entry
  have hnewparams : ∃ params', new.params owner = .ok params' := by
    rw [Method.params, hg]
    exact ⟨_, rfl⟩
  obtain ⟨params', hparams'⟩ := hnewparams
  refine ⟨params', hparams', fun p rest hlisting => ?_⟩
  obtain ⟨q, rest', hold⟩ := List.exists_cons_of_ne_nil
    (hrewritable.listing_ne_nil ha (by rw [← hcode, hlisting]; simp))
  have hstrays : ∀ s ∈ m.paramStarts f, m.straysBelow f e.slots s = [] := by
    intro s hs
    rw [straysBelow, List.filter_eq_nil_iff]
    intro k hk hstray
    obtain ⟨hlt, hnot⟩ := of_decide_eq_true hstray
    exact hnot (hfree f hf s hs k (hexpanded ▸ hk) hlt)
  have hadmits := ((hrewritable.prepared ha hseparates).entry hfits hm hold (hentry q rest' hold)).move (E := e.slots)
  obtain ⟨p', rest'', hlisting', hfirst⟩ := hcontinues _ (by rw [hold]; exact ⟨_, _, rfl, hadmits⟩)
  obtain ⟨rfl, -⟩ := List.cons.inj (hlisting.symm.trans hlisting')
  exact hfirst.of_refines (entry_moved hf hg hstatic hparams hlong hstrays hm hparams')

/-- A method without branches and handlers is verified if what it is entered with passes through its code. -/
theorem Verifies.of_runs {params : List ValueType} (hlinked : m.code.WellLinked) (hhandlers : m.handlers = [])
    (hparams : m.params owner = .ok params)
    (h : Runs (fun _ => KindStep fun _ => false) (fun _ _ => False) (fun _ => True) (fun _ => False) m.code.listing
      (.entry params)) : ∃ T, m.Verifies owner T := by
  obtain ⟨U, hU⟩ := h.segment hlinked.nodup
  let T : TypeTable := fun id => if id ∈ m.code.listing.map Prod.fst then U id else none
  have hadmits : ∀ ls, (∀ p ∈ ls, p ∈ m.code.listing) → ∀ t, U.Enters (fun _ => False) ls t → T.Continues ls t := by
    intro ls hls t ht
    cases ls with
    | nil => exact ht.elim
    | cons p rest =>
      obtain ⟨u, hu, hrefines⟩ := ht
      exact ⟨p, rest, rfl, u, by rw [← hu]; exact if_pos (List.mem_map_of_mem (hls p (by simp))), hrefines⟩
  refine ⟨T, ⟨?_, ?_⟩, params, hparams, ?_⟩
  · intro id t ht
    by_contra hmem
    rw [show T id = none from if_neg hmem] at ht
    cases ht
  · intro pre id x post hlisting t ht
    have hmem : id ∈ m.code.listing.map Prod.fst := by simp [hlisting]
    rw [show T id = U id from if_pos hmem] at ht
    obtain ⟨t', hrule, htargets, -, -, hfalls⟩ := hU.line pre id x post hlisting t ht
    refine ⟨t', hrule, fun q hq => (htargets q hq).elim, fun hfall => ?_, by simp [hhandlers]⟩
    exact hadmits post (fun p hp => by simp [hlisting, hp]) t' (hfalls hfall)
  · intro p rest hlisting
    obtain ⟨p', rest', hcons, hfirst⟩ := hadmits _ (fun _ hp => hp) _ hU.enters
    obtain ⟨rfl, -⟩ := List.cons.inj (hlisting.symm.trans hcons)
    exact hfirst

/-! ## A method whose parameter is split -/

namespace Split

/-- Two calls with a coordinate among their parameters. -/
def spec : CatalogSpec where
  unpacking := ["P#x (J)I", "P#y (J)I", "P#z (J)I"]
  methods := [("Q#f (LA;J)V", { packedArgs := [1], isStatic := true }),
    ("Q#h (JI)V", { packedArgs := [0], isStatic := true })]

/-- The catalog of the description. -/
def catalog : Catalog :=
  ⟨[⟨⟨"Q", "f", "(LA;J)V"⟩, false, [1], true, ⟨"Q", "f", "(LA;III)V"⟩, none, false⟩,
    ⟨⟨"Q", "h", "(JI)V"⟩, false, [0], true, ⟨"Q", "h", "(IIII)V"⟩, none, false⟩],
   ⟨⟨"P", "x", "(J)I"⟩, ⟨"P", "y", "(J)I"⟩, ⟨"P", "z", "(J)I"⟩⟩, none, CatalogSpec.defaultSentinel⟩

theorem spec_build : spec.build = .ok catalog := by
  apply except_ok_of_toOption
  simp only [CatalogSpec.build, CatalogSpec.buildEntries, EntrySpec.build, spec, List.mergeSort_singleton]
  decide +kernel

/-- The instructions take an axis out of the first parameter, and pass both parameters on. -/
def insns : List Insn :=
  [.var .lload 0, .call .invokestatic ⟨"P", "x", "(J)I"⟩ false, .var .istore 2, .var .lload 0, .var .iload 2,
    .call .invokestatic ⟨"Q", "h", "(JI)V"⟩ false, .plain .returnVoid]

def method : Method := ⟨"m", "(JI)V", ⟨8⟩, .ofList insns, [], [], 3, 3⟩

theorem listing_eq : method.code.listing = Code.numbered 0 insns := (Code.holds_ofList insns).listing_eq

theorem parse_desc : MethodType.parse ("(JI)V" : Text) = .ok ⟨[.long, .int], .void⟩ :=
  MethodType.parse_desc (@MethodType.writable_of_prims [.long, .int] .void (by decide))

/-- The slots of the instructions are far below the greatest one. -/
theorem slots_lt : ∀ x ∈ insns, ∀ s, x.slot? = some s → s + (1 : Nat) < Slot.limit := by
  have hall : ∀ x ∈ insns, x.slot?.all (fun s => decide (s + (1 : Nat) < Slot.limit)) = true := by decide
  intro x hx s hs
  have hlt := hall x hx
  rw [hs] at hlt
  exact of_decide_eq_true hlt

theorem labelled : Labelled method.handlers method.code.listing := by
  have htargets : ∀ x ∈ method.code.listing.map Prod.snd, x.targets = [] := by
    rw [listing_eq, Code.map_snd_numbered]
    decide
  rintro q (⟨p, hp, hq⟩ | ⟨h, hh, -⟩)
  · rw [htargets p.2 (List.mem_map_of_mem hp)] at hq
    cases hq
  · cases hh

theorem callsFit : method.code.CallsFit catalog := by
  rw [Code.CallsFit, listing_eq, Code.map_snd_numbered]
  intro op m itf hm
  obtain rfl : op = .invokestatic := by
    simp only [insns, List.mem_cons, Insn.call.injEq, reduceCtorEq, List.not_mem_nil, or_false, false_or] at hm
    rcases hm with ⟨rfl, -⟩ | ⟨rfl, -⟩ <;> rfl
  refine ⟨fun _ => rfl, fun _ => rfl, fun e he haxes => ?_⟩
  have hmem := (Catalog.lookup_key he).2
  simp only [catalog, List.mem_cons, List.not_mem_nil, or_false] at hmem
  rcases hmem with rfl | rfl <;> cases haxes

/-- It is verified. -/
theorem verifies : ∃ T, method.Verifies "C" T := by
  have hparams : method.params "C" = .ok [.long, .top, .int] := by
    rw [Method.params, show method.type = _ from parse_desc]
    rfl
  apply Verifies.of_runs (Code.holds_ofList _).wellLinked rfl hparams
  rw [listing_eq]
  have hlong : (FrameType.entry [.long, .top, .int]).locals 0 .long := ⟨0, .long, rfl, rfl, rfl⟩
  have hload : ∀ S (L : LocalKinds), L 0 .long → KindStep (fun _ => false) (.var .lload 0) ⟨S, L⟩ ⟨.long :: S, L⟩ :=
    fun S L hL => ⟨[], [.long], S, rfl, rfl, .load (t := .long) (κ := .long) rfl rfl rfl hL rfl fun _ => rfl⟩
  apply Runs.step (hload _ _ hlong) rfl trivial
  apply Runs.step ((kindStep_call_iff rfl parse_unpackDesc [.long] [.int] rfl rfl).mpr ⟨[], rfl, rfl⟩) rfl trivial
  refine .line (.refl _) (kindStep_storeInt (by decide)) (by simp [Insn.targets]) trivial trivial fun _ => ?_
  refine Runs.step (hload _ _ ⟨hlong, by decide, by decide⟩) rfl trivial ?_
  apply Runs.step ((kindStep_load_iff (.inl rfl)).mpr ⟨.int, rfl, rfl, rfl⟩) rfl trivial
  apply Runs.step ((kindStep_call_iff rfl parse_desc [.long, .int] [] rfl rfl).mpr ⟨[], rfl, rfl⟩) rfl trivial
  refine .line (.refl _) (kindStep_regular [] [] rfl rfl rfl [] _) (by simp [Insn.targets]) trivial trivial fun h => ?_
  cases h

/-- Its edits are out of each other's way. -/
theorem separates (a : Analysis) (e : Expansion) (ha : ofMethod "C" method = .ok a)
    (he : Expansion.solve catalog a = .ok e) : a.Separates (method.callEdits catalog a e.slots) := by
  have h : ((ofMethod "C" method).toOption.bind fun a => (Expansion.solve catalog a).toOption.map fun e =>
      let es := method.callEdits catalog a e.slots
      decide ((∀ l ∈ a.reachable, ∀ v ∈ l.2.stack, ∀ p ∈ v.producers, ∀ q ∈ v.producers,
          CallEdit.partOf es p = CallEdit.partOf es q) ∧
        (∀ l ∈ a.reachable, Step.isShuffle l.1.2.opcode = false) ∧
        ∀ e ∈ es, ((e.args.flatMap Value.producers).filter fun p => (CallEdit.partOf es p).isSome).Nodup)) =
      some true := by decide +kernel
  simp only [ha, he, Except.toOption, Option.bind_some, Option.map_some, Option.some.injEq, decide_eq_true_eq] at h
  obtain ⟨halike, hstill, honce⟩ := h
  refine ⟨fun id x f hmem => halike _ hmem, fun id op f hmem top top' rest _ hmoves => ?_, honce⟩
  have hop : Step.isShuffle op = false := hstill _ hmem
  rw [hmoves.isShuffle] at hop
  cases hop

end Split

/-! ## Calls of the new method -/

/-- A transformed method can be analysed, and every call that is reached in it finds what it takes on the stack, if the
method was verified, the calls that the catalog knows are made as they should be, converting the calls does not get in
the way of what else happens on the stack, no expanded slot below a parameter is a stray, and no slot that is reached
is moved past the greatest one. -/
theorem transform_conforms {spec : CatalogSpec} (hcat : spec.build = .ok cat) (hlinked : m.code.WellLinked)
    (hlabels : Labelled m.handlers m.code.listing) (hcalls : m.code.CallsFit cat) (hT : m.Verifies owner T)
    (hsep : ∀ a e, Analysis.ofMethod owner m = .ok a → Expansion.solve cat a = .ok e →
      a.Separates (m.callEdits cat a e.slots))
    (hfree : ∀ f, m.type = .ok f → ∀ s ∈ m.paramStarts f, ∀ e ∈ t.expanded, (e : Int) < s → (e : Int) ∈ m.paramStarts f)
    (hslots : ∀ a, Analysis.ofMethod owner m = .ok a → ∀ p ∈ a.reachable, ∀ s, p.1.2.slot? = some s →
      s + t.expanded.length < Slot.limit)
    (ht : m.transform cat owner suffix = .ok t) (hnew : t.method = some new) :
    ∃ a, Analysis.ofMethod owner new = .ok a ∧ a.CallsConform := by
  obtain ⟨hlinked', hlabels', T', hT'⟩ :=
    transform_verifies (CatalogSpec.build_shaped hcat) hlinked hlabels hcalls hT hsep hfree hslots ht hnew
  obtain ⟨a, ha, hconform, -⟩ := hT'.analysis hlinked' hlabels'.starts
  exact ⟨a, ha, hconform⟩

/-- A pattern is replaced in the method, a call is converted, and the parameters change, and the new method can be
analysed. -/
theorem transform_conforms_split : ∃ t new a, Split.method.transform Split.catalog "C" "" = .ok t ∧
    t.method = some new ∧ t.expanded = [0] ∧ t.patterns = [("unpack", 1)] ∧ t.calls = 1 ∧
    new.desc = ("(IIII)V" : Text) ∧ Analysis.ofMethod "C" new = .ok a ∧ a.CallsConform := by
  have h : ((Split.method.transform Split.catalog "C" "").toOption.bind fun t => t.method.map fun new =>
      (t.expanded, t.patterns, t.calls, new.desc)) = some ([0], [("unpack", 1)], 1, ("(IIII)V" : Text)) := by
    decide +kernel
  obtain ⟨t, ht, h⟩ := Option.bind_eq_some_iff.mp h
  obtain ⟨new, hnew, h⟩ := Option.map_eq_some_iff.mp h
  simp only [Prod.mk.injEq] at h
  obtain ⟨hexpanded, hpatterns, hcalls, hdesc⟩ := h
  have ht := except_ok_of_toOption ht
  obtain ⟨T, hT⟩ := Split.verifies
  obtain ⟨a, ha, hconform⟩ := transform_conforms Split.spec_build (Code.holds_ofList _).wellLinked Split.labelled
    Split.callsFit hT Split.separates (fun f hf => by
      obtain rfl := Except.ok.inj ((show Split.method.type = _ from Split.parse_desc).symm.trans hf)
      rw [hexpanded]
      decide) (fun a ha p hp s hs => by
      have hline := List.mem_map_of_mem (f := Prod.snd) (step_of_mem_reachable ha hp).1
      rw [Split.listing_eq, Code.map_snd_numbered] at hline
      rw [hexpanded]
      exact Split.slots_lt _ hline s hs) ht hnew
  exact ⟨t, new, a, ht, hnew, hexpanded, hpatterns, hcalls, hdesc, ha, hconform⟩

/-- A method that pushes its parameters in the wrong order, and then puts them right. -/
def lifting : Method :=
  ⟨"m", "(LA;J)V", ⟨8⟩, .ofList [.var .lload 1, .var .aload 0, .plain .dupX2, .plain .pop,
    .call .invokestatic ⟨"Q", "f", "(LA;J)V"⟩ false, .plain .returnVoid], [], [], 4, 3⟩

/-- The coordinate is moved as one value of two words. In three parts it is cut, and the call finds an int in place
of the reference: without the condition on the edits, calls need not find what they take. -/
theorem lifting_not_conforms : ∃ a t new a', ofMethod "C" lifting = .ok a ∧ a.CallsConform ∧
    lifting.transform Split.catalog "C" "" = .ok t ∧ t.method = some new ∧ ofMethod "C" new = .ok a' ∧
    ¬ a'.CallsConform := by
  have h : ((ofMethod "C" lifting).toOption.bind fun a =>
      (lifting.transform Split.catalog "C" "").toOption.bind fun t => t.method.bind fun new =>
        (ofMethod "C" new).toOption.map fun a' => (decide a.CallsConform, decide a'.CallsConform)) =
      some (true, false) := by decide +kernel
  obtain ⟨a, ha, h⟩ := Option.bind_eq_some_iff.mp h
  obtain ⟨t, ht, h⟩ := Option.bind_eq_some_iff.mp h
  obtain ⟨new, hnew, h⟩ := Option.bind_eq_some_iff.mp h
  obtain ⟨a', ha', h⟩ := Option.map_eq_some_iff.mp h
  obtain ⟨hconform, hbreaks⟩ := Prod.mk.inj h
  exact ⟨a, t, new, a', except_ok_of_toOption ha, of_decide_eq_true hconform, except_ok_of_toOption ht, hnew,
    except_ok_of_toOption ha', of_decide_eq_false hbreaks⟩

end Method

end CoordSplit
