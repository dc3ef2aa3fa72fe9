import CoordSplit.Proofs.TypingRules

/-!
# Verified methods

A type table says what is known before the instructions of a code. `Typed` checks a table line by line: what is
known after an instruction has to imply what the table says about everything that can follow it, handlers
included, as a verifier does with a stack map. Where the table says nothing, the code is not reached.

A method with such a table is analysed successfully (`Method.Verifies.analysis`): its frames agree with the
table, and what lies on the stack before a call conforms to the call's descriptor.
-/

set_option autoImplicit false

namespace CoordSplit

/-! ## Type tables -/

variable {f : Frame} {t : FrameType}

theorem Frame.Fits.mono {u : FrameType} (hf : f.Fits t) (h : t.Refines u) : f.Fits u :=
  ⟨by rw [hf.stack, h.stack], fun j κ hu => hf.locals j κ (h.locals j κ hu)⟩

/-- What is known before the instructions of a code that are reached. -/
abbrev TypeTable := InsnId → Option FrameType

/-- The instruction can be reached with what `t` says. -/
def TypeTable.Admits (T : TypeTable) (id : InsnId) (t : FrameType) : Prop :=
  ∃ u, T id = some u ∧ t.Refines u

theorem TypeTable.Admits.of_refines {T : TypeTable} {id : InsnId} {u : FrameType} (h : T.Admits id u)
    (ht : t.Refines u) : T.Admits id t := by
  obtain ⟨v, hv, huv⟩ := h
  exact ⟨v, hv, ht.trans huv⟩

/-- A handler can be reached with what is known of the local slots. -/
def TypeTable.Catches (T : TypeTable) (h : Handler) (L : LocalKinds) : Prop := T.Admits h.handler ⟨[.ref], L⟩

/-- The first of the given lines can be reached with what `t` says. -/
def TypeTable.Continues (T : TypeTable) (ls : List (InsnId × Insn)) (t : FrameType) : Prop :=
  ∃ p rest, ls = p :: rest ∧ T.Admits p.1 t

/-- The table is right about a code, where `R` gives the rules for its lines. -/
structure Typed (R : InsnId → Insn → FrameType → FrameType → Prop) (hs : List Handler)
    (ls : List (InsnId × Insn)) (T : TypeTable) : Prop where
  support : ∀ id t, T id = some t → id ∈ ls.map Prod.fst
  line : ∀ pre id x post, ls = pre ++ (id, x) :: post → ∀ t, T id = some t → ∃ t', R id x t t' ∧
    (∀ q ∈ x.targets, T.Admits q t') ∧ (x.opcode.falls = true → T.Continues post t') ∧
    ∀ h ∈ hs, h.start ∈ pre.map Prod.fst ++ [id] → h.stop ∈ post.map Prod.fst →
      T.Catches h t.locals ∧ T.Catches h t'.locals

/-- What is known at the start of a method whose first slots have the given types. -/
def FrameType.entry (params : List ValueType) : FrameType :=
  ⟨[], fun j κ => ∃ (k : Nat) (t : ValueType), j = k ∧ params[k]? = some t ∧ t.kind? = some κ⟩

/-- The table is right about a method declared by `owner`. -/
structure Method.Verifies (m : Method) (owner : Text) (T : TypeTable) : Prop where
  typed : Typed (fun _ => KindStep fun _ => false) m.handlers m.code.listing T
  entry : ∃ params, m.params owner = .ok params ∧
    ∀ p rest, m.code.listing = p :: rest → T.Admits p.1 (.entry params)

/-! ## Frames that meet -/

namespace Frame

theorem kind?_merge {v w : Value} {κ : Kind} (hv : v.kind? = some κ) (hw : w.kind? = some κ) :
    (v.merge w).kind? = some κ := by
  rw [Value.merge]
  split
  · exact hv
  · exact ValueType.kind?_merge hv hw

/-- Stacks of one kind meet. -/
theorem mergeStacks_fits {vs ws : List Value} {ks : List Kind} (hvs : vs.map Value.kind? = ks.map some)
    (hws : ws.map Value.kind? = ks.map some) :
    ∃ merged grew, mergeStacks vs ws = (merged, .ok grew) ∧ merged.map Value.kind? = ks.map some := by
  induction ks generalizing vs ws with
  | nil =>
    simp only [List.map_nil, List.map_eq_nil_iff] at hvs hws
    subst hvs hws
    exact ⟨[], false, rfl, rfl⟩
  | cons κ ks ih =>
    obtain ⟨v, vs', rfl, hv, hvs'⟩ := List.map_eq_cons_iff.mp hvs
    obtain ⟨w, ws', rfl, hw, hws'⟩ := List.map_eq_cons_iff.mp hws
    obtain ⟨merged, grew, hmerge, hkinds⟩ := ih hvs' hws'
    have hsize : w.size = v.size := by rw [Value.size_eq_of_kind? hw, Value.size_eq_of_kind? hv]
    refine ⟨v.merge w :: merged, grew || !(v.merge w).equal v, ?_, ?_⟩
    · simp only [mergeStacks, hmerge, hsize, ne_eq, not_true_eq_false, if_false]
    · rw [List.map_cons, hkinds, kind?_merge hv hw, List.map_cons]

/-- Each slot is merged on its own. -/
theorem join_getElem?_mergeLocals (xs ys : List (Option Value)) (k : Nat) :
    ((mergeLocals xs ys).1[k]?).join = (mergeUnset (xs[k]?).join (ys[k]?).join).1 := by
  induction ys generalizing xs k with
  | nil =>
    have hnone : mergeLocals xs [] = (xs, false) := by cases xs <;> rfl
    rw [hnone]
    rfl
  | cons y ys ih =>
    cases xs with
    | nil =>
      cases k with
      | zero => cases y <;> rfl
      | succ k => simpa [mergeLocals] using ih [] k
    | cons x xs =>
      cases k with
      | zero => rfl
      | succ k => simpa [mergeLocals] using ih xs k

/-- Two frames that agree with the same table entry can meet, and then agree with it. -/
theorem Fits.merge {f g : Frame} {t : FrameType} (hf : f.Fits t) (hg : g.Fits t) :
    ∃ merged changed, f.merge g = (merged, .ok changed) ∧ merged.Fits t := by
  obtain ⟨stack, grew, hstacks, hkinds⟩ := mergeStacks_fits hf.stack hg.stack
  have hlength : f.stack.length = g.stack.length := by
    have hf' := congrArg List.length hf.stack
    have hg' := congrArg List.length hg.stack
    rw [List.length_map] at hf' hg'
    exact hf'.trans hg'.symm
  refine ⟨⟨stack, (mergeLocals f.locals g.locals).1⟩, grew || (mergeLocals f.locals g.locals).2, ?_, hkinds, ?_⟩
  · simp only [Frame.merge, hlength, hstacks, ne_eq, not_true_eq_false, if_false]
  · intro j κ hj
    obtain ⟨v, hv, hvκ⟩ := hf.locals j κ hj
    obtain ⟨w, hw, hwκ⟩ := hg.locals j κ hj
    cases j with
    | negSucc _ => cases hv
    | ofNat k =>
      refine ⟨v.merge w, ?_, kind?_merge hvκ hwκ⟩
      have hv' : (f.locals[k]?).join = some v := hv
      have hw' : (g.locals[k]?).join = some w := hw
      show ((mergeLocals f.locals g.locals).1[k]?).join = _
      rw [join_getElem?_mergeLocals, hv', hw']
      rfl

end Frame

/-! ## Positions -/

theorem split_at {α : Type} {l : List α} {p : Nat} {x : α} (h : l[p]? = some x) :
    ∃ pre post, l = pre ++ x :: post ∧ pre.length = p := by
  obtain ⟨hlt, rfl⟩ := List.getElem?_eq_some_iff.mp h
  refine ⟨l.take p, l.drop (p + 1), ?_, ?_⟩
  · rw [List.getElem_cons_drop, List.take_append_drop]
  · rw [List.length_take]
    omega

/-- Positions are those of the listing. -/
theorem Layout.position?_eq_some_iff {m : Method} (hm : m.code.WellLinked) (id : InsnId) (p : Nat) :
    (Layout.ofMethod m).position? id = some p ↔ (m.code.listing.map Prod.fst)[p]? = some id := by
  cases id with
  | negSucc k =>
    constructor
    · intro h
      cases h
    · intro h
      have hpos := (hm.id_lt (List.mem_of_getElem? h)).1
      exact absurd hpos (by simp)
  | ofNat k =>
    have hindex := Code.Holds.index_eq_some_iff hm k p
    rw [Int.ofNat_eq_natCast, ← hindex]
    unfold position? ofMethod
    dsimp only
    split
    · next q hq => rw [hq, Option.some.injEq, Option.some.injEq, Int.ofNat_eq_natCast, Int.natCast_inj]
    · next hne =>
      constructor
      · intro h
        cases h
      · intro h
        exact absurd h (hne p)

/-! ## The worklist keeps to the table -/

namespace FlowState

/-- The frame after an instruction flows to the next one, if the instruction can go on there. -/
def flowNext (l : Layout) (p : Nat) (id : InsnId) (x : Insn) (f : Frame) (s : FlowState) :
    Outcome FlowError FlowState :=
  if x.opcode.falls then
    if p + 1 = l.lines.size then Outcome.fail (.fallsOff id) else s.flow l id (some (p + 1)) f
  else .ok s

variable {p : Nat} {id : InsnId} {x : Insn} {f : Frame} {t : FrameType}

/-- A visit in its steps. -/
theorem visit_eq {l : Layout} {s : FlowState} (hline : l.lines[p]? = some (id, x)) (hf : s.frames[p]? = some (some f)) :
    s.visit l p = (step id.toNat x f).mapError (.step id) >>= fun r =>
      x.targets.foldlM (fun s q => s.flow l id (l.position? q) r.frame) s >>= fun s =>
        s.flowNext l p id x r.frame >>= flowHandlers l p id r.frame l.method.handlers := by
  rw [visit, hline, hf]
  simp only
  congr
  funext r
  congr
  funext s
  rw [flowNext]
  split
  · split <;> rfl
  · rfl

/-- The frames found so far agree with the table, and every queued position has one. -/
structure Obeys (ls : List (InsnId × Insn)) (T : TypeTable) (s : FlowState) : Prop where
  size : s.frames.size = ls.length
  fits : ∀ (p : Nat) (f : Frame), s.frames[p]? = some (some f) → ∃ id x t, ls[p]? = some (id, x) ∧ T id = some t ∧ f.Fits t
  queued : ∀ p ∈ s.queue, ∃ f, s.frames[p]? = some (some f)

/-- Positions that have a frame keep one. -/
def Keeps (s s' : FlowState) : Prop :=
  ∀ (p : Nat) (f : Frame), s.frames[p]? = some (some f) → ∃ g, s'.frames[p]? = some (some g)

theorem Keeps.refl (s : FlowState) : s.Keeps s := fun _ f h => ⟨f, h⟩

theorem Keeps.trans {s s' s'' : FlowState} (h : s.Keeps s') (h' : s'.Keeps s'') : s.Keeps s'' := by
  intro p f hf
  obtain ⟨g, hg⟩ := h p f hf
  exact h' p g hg

@[simp] theorem frames_enqueue (s : FlowState) (p : Nat) : (s.enqueue p).frames = s.frames := by
  rw [enqueue]
  split <;> rfl

/-- What is queued after a position is put in. -/
theorem mem_queue_enqueue {s : FlowState} {p q : Nat} : q ∈ (s.enqueue p).queue ↔ q = p ∨ q ∈ s.queue := by
  rw [enqueue]
  split
  · next hcontains =>
    refine ⟨.inr, ?_⟩
    rintro (rfl | hq)
    · simpa using hcontains
    · exact hq
  · exact mem_insertSorted _ p q s.queue

/-- A frame that is known once one position is set is the one set there, or was known before. -/
theorem frame_of_set {frames : Array (Option Frame)} {p q : Nat} {g g' : Frame}
    (h : (frames.setIfInBounds p (some g))[q]? = some (some g')) : (p = q ∧ g = g') ∨ frames[q]? = some (some g') := by
  rw [Array.getElem?_setIfInBounds] at h
  split at h
  · next hq =>
    split at h
    · exact .inl ⟨hq, Option.some.inj (Option.some.inj h)⟩
    · cases h
  · exact .inr h

section

variable {ls : List (InsnId × Insn)} {T : TypeTable} {l : Layout} {s : FlowState}

variable {p : Nat} {f : Frame}

/-- A frame that fits may be put in. -/
theorem Obeys.set (hs : s.Obeys ls T) {id : InsnId} {x : Insn} {t : FrameType}
    (hp : ls[p]? = some (id, x)) (ht : T id = some t) (hf : f.Fits t) :
    Obeys ls T { s with frames := s.frames.setIfInBounds p (some f) } ∧
      s.Keeps { s with frames := s.frames.setIfInBounds p (some f) } := by
  have hlt : p < s.frames.size := by
    rw [hs.size]
    exact (List.getElem?_eq_some_iff.mp hp).1
  have hkeeps : s.Keeps { s with frames := s.frames.setIfInBounds p (some f) } := by
    intro q g hg
    by_cases hq : p = q
    · subst hq
      exact ⟨f, by simp [hlt]⟩
    · exact ⟨g, by simpa [Array.getElem?_setIfInBounds, hq] using hg⟩
  refine ⟨⟨by simpa using hs.size, ?_, ?_⟩, hkeeps⟩
  · intro q g hg
    rcases frame_of_set hg with ⟨rfl, rfl⟩ | hq
    · exact ⟨id, x, t, hp, ht, hf⟩
    · exact hs.fits q g hq
  · intro q hq
    obtain ⟨g, hg⟩ := hs.queued q hq
    exact hkeeps q g hg

theorem Obeys.enqueue (hs : s.Obeys ls T) (hp : s.frames[p]? = some (some f)) : (s.enqueue p).Obeys ls T := by
  refine ⟨by simpa using hs.size, by simpa using hs.fits, ?_⟩
  intro q hq
  rw [frames_enqueue]
  rcases mem_queue_enqueue.mp hq with rfl | hq
  · exact ⟨f, hp⟩
  · exact hs.queued q hq

/-- A frame that agrees with the table can flow to where the table admits it. -/
theorem Obeys.flow (hs : s.Obeys ls T) {id : InsnId} {x : Insn} {t : FrameType}
    (hp : ls[p]? = some (id, x)) (ht : T.Admits id t) (hf : f.Fits t) (source : InsnId) :
    ∃ s', s.flow l source (some p) f = .ok s' ∧ s'.Obeys ls T ∧ s.Keeps s' := by
  obtain ⟨u, hu, hrefines⟩ := ht
  have hfits := hf.mono hrefines
  have hlt : p < s.frames.size := by
    rw [hs.size]
    exact (List.getElem?_eq_some_iff.mp hp).1
  have hset : ∀ g : Frame, (s.frames.setIfInBounds p (some g))[p]? = some (some g) := by simp [hlt]
  cases hknown : s.frames[p] with
  | none =>
    have hget : s.frames[p]? = some none := by rw [Array.getElem?_eq_getElem hlt, hknown]
    obtain ⟨hobeys, hkeeps⟩ := hs.set hp hu hfits
    refine ⟨_, by simp only [FlowState.flow, hget], hobeys.enqueue (hset f), ?_⟩
    simpa [Keeps] using hkeeps
  | some known =>
    have hget : s.frames[p]? = some (some known) := by rw [Array.getElem?_eq_getElem hlt, hknown]
    obtain ⟨id', x', u', hp', hu', hknownFits⟩ := hs.fits p known hget
    obtain ⟨rfl, rfl⟩ := Prod.mk.inj (Option.some.inj (hp.symm.trans hp'))
    obtain rfl := Option.some.inj (hu.symm.trans hu')
    obtain ⟨merged, changed, hmerge, hmerged⟩ := hknownFits.merge hfits
    obtain ⟨hobeys, hkeeps⟩ := hs.set hp hu hmerged
    let joined : FlowState := { s with frames := s.frames.setIfInBounds p (some merged) }
    refine ⟨if changed then joined.enqueue p else joined, by simp only [FlowState.flow, hget, hmerge, joined], ?_, ?_⟩
    · split
      · exact hobeys.enqueue (hset merged)
      · exact hobeys
    · split
      · simpa [Keeps] using hkeeps
      · exact hkeeps

end

variable {m : Method} {T : TypeTable} {s : FlowState}

section

variable (hm : m.code.WellLinked) (hsupport : ∀ id t, T id = some t → id ∈ m.code.listing.map Prod.fst)
  (hs : s.Obeys m.code.listing T)

include hm hsupport hs

/-- A frame can flow to an instruction that the table admits. -/
theorem Obeys.flow_id (ht : T.Admits id t) (hf : f.Fits t) (source : InsnId) :
    ∃ s', s.flow (.ofMethod m) source ((Layout.ofMethod m).position? id) f = .ok s' ∧
      s'.Obeys m.code.listing T ∧ s.Keeps s' := by
  have ⟨u, hu, _⟩ := ht
  obtain ⟨p, hp⟩ := List.getElem?_of_mem (hsupport _ u hu)
  have hposition := (Layout.position?_eq_some_iff hm _ p).mpr hp
  obtain ⟨x, hline⟩ : ∃ x, m.code.listing[p]? = some (id, x) := by
    simpa [List.getElem?_map, Option.map_eq_some_iff] using hp
  rw [hposition]
  exact hs.flow hline ht hf source

theorem Obeys.flow_targets
    {targets : List InsnId} (ht : ∀ q ∈ targets, T.Admits q t) (hf : f.Fits t) (source : InsnId) :
    ∃ s', targets.foldlM (fun s q => s.flow (.ofMethod m) source ((Layout.ofMethod m).position? q) f) s = .ok s' ∧
      s'.Obeys m.code.listing T ∧ s.Keeps s' := by
  induction targets generalizing s with
  | nil => exact ⟨s, rfl, hs, .refl s⟩
  | cons q targets ih =>
    obtain ⟨s', hflow, hobeys, hkeeps⟩ := hs.flow_id hm hsupport (ht q (by simp)) hf source
    obtain ⟨s'', hrest, hobeys', hkeeps'⟩ := ih hobeys fun q' hq' => ht q' (by simp [hq'])
    refine ⟨s'', ?_, hobeys', hkeeps.trans hkeeps'⟩
    rw [List.foldlM_cons, hflow]
    exact hrest

/-- The locals before and after an instruction can flow into the handlers that cover it. -/
theorem Obeys.flow_handler
    {h : Handler} {L : LocalKinds} {locals : List (Option Value)} {stack : List Value} (hcatch : T.Catches h L)
    (hlocals : ∀ j κ, L j κ → Frame.Holds ⟨stack, locals⟩ j κ) (source : InsnId) :
    ∃ s', s.flowHandler (.ofMethod m) source h locals = .ok s' ∧ s'.Obeys m.code.listing T ∧ s.Keeps s' := by
  have ⟨u, hu, _⟩ := hcatch
  have hnonneg := (hm.id_lt (hsupport _ u hu)).1
  obtain ⟨k, hk⟩ := Int.eq_ofNat_of_zero_le hnonneg
  have hfits : Frame.Fits ⟨[.produced (if h.type.isEmpty then .throwable else .object h.type) k], locals⟩
      ⟨[.ref], L⟩ := by
    refine ⟨?_, hlocals⟩
    split <;> rfl
  obtain ⟨s', hflow, hrest⟩ := hs.flow_id hm hsupport hcatch hfits source
  refine ⟨s', ?_, hrest⟩
  rw [← hflow, flowHandler]
  split
  · next heq => rw [heq] at hk; cases hk
  · next k' heq =>
    rw [heq] at hk
    obtain rfl : k' = k := by simpa using hk
    rfl

end

/-- Where a handler covers, it starts before and ends behind. -/
theorem start_before {h : Handler} (hm : m.code.WellLinked)
    (hstart : h.start ∈ m.code.listing.map Prod.fst) (hcovers : covers (.ofMethod m) h p = true) {pre post}
    (hlisting : m.code.listing = pre ++ (id, x) :: post) (hp : pre.length = p) :
    h.start ∈ pre.map Prod.fst ++ [id] ∧ h.stop ∈ post.map Prod.fst := by
  have hids : m.code.listing.map Prod.fst = pre.map Prod.fst ++ [id] ++ post.map Prod.fst := by simp [hlisting]
  have hlength : (pre.map Prod.fst ++ [id]).length = p + 1 := by simp [hp]
  obtain ⟨i, hi⟩ := List.getElem?_of_mem hstart
  have hfirst := (Layout.position?_eq_some_iff hm h.start i).mpr hi
  rw [covers, hfirst] at hcovers
  cases hstop : (Layout.ofMethod m).position? h.stop with
  | none => simp [hstop] at hcovers
  | some j =>
    simp only [hstop, Bool.and_eq_true, decide_eq_true_eq] at hcovers
    have hj := (Layout.position?_eq_some_iff hm h.stop j).mp hstop
    rw [hids] at hi hj
    refine ⟨?_, ?_⟩
    · rw [List.getElem?_append_left (by omega)] at hi
      exact List.mem_of_getElem? hi
    · rw [List.getElem?_append_right (by omega)] at hj
      exact List.mem_of_getElem? hj

/-- Handlers get frames that fit. -/
theorem Obeys.flow_handlers (hm : m.code.WellLinked)
    (hsupport : ∀ id t, T id = some t → id ∈ m.code.listing.map Prod.fst) (hs : s.Obeys m.code.listing T)
    {t' : FrameType} {after : Frame}
    (hp : m.code.listing[p]? = some (id, x)) (ht : T id = some t) (hf : s.frames[p]? = some (some f))
    (hafter : after.Fits t') {handlers : List Handler}
    (hcatch : ∀ h ∈ handlers, covers (.ofMethod m) h p = true → T.Catches h t.locals ∧ T.Catches h t'.locals) :
    ∃ s', flowHandlers (.ofMethod m) p id after handlers s = .ok s' ∧ s'.Obeys m.code.listing T := by
  induction handlers generalizing s f with
  | nil => exact ⟨s, rfl, hs⟩
  | cons h handlers ih =>
    have hrest : ∀ h' ∈ handlers, covers (.ofMethod m) h' p = true → _ := fun h' hh' => hcatch h' (by simp [hh'])
    rw [flowHandlers]
    split
    · next hcovers =>
      obtain ⟨hbefore, hthen⟩ := hcatch h (by simp) hcovers
      have hlocals : ∀ j κ, t.locals j κ → f.Holds j κ := by
        obtain ⟨id', x', u, hp', hu, hfits⟩ := hs.fits p f hf
        obtain ⟨rfl, rfl⟩ := Prod.mk.inj (Option.some.inj (hp.symm.trans hp'))
        obtain rfl := Option.some.inj (ht.symm.trans hu)
        exact hfits.locals
      have hknown : (s.frames[p]?.join.map Frame.locals).getD [] = f.locals := by rw [hf]; rfl
      obtain ⟨s₁, hflow₁, hobeys₁, hkeeps₁⟩ := hs.flow_handler hm hsupport hbefore hlocals id
      obtain ⟨s₂, hflow₂, hobeys₂, hkeeps₂⟩ := hobeys₁.flow_handler hm hsupport hthen hafter.locals id
      obtain ⟨g, hg⟩ := hkeeps₁.trans hkeeps₂ p f hf
      obtain ⟨s', hflow, hobeys⟩ := ih hobeys₂ hg hrest
      refine ⟨s', ?_, hobeys⟩
      simp only [hknown, hflow₁, hflow₂, hflow, bind, Except.bind]
    · exact ih hs hf hrest

/-- What the table admits can be executed: a visit succeeds and keeps to the table. -/
theorem Obeys.visit (hm : m.code.WellLinked) (hstarts : ∀ h ∈ m.handlers, h.start ∈ m.code.listing.map Prod.fst)
    (hT : Typed (fun _ => KindStep fun _ => false) m.handlers m.code.listing T) (hs : s.Obeys m.code.listing T)
    (hf : s.frames[p]? = some (some f)) : ∃ s', s.visit (.ofMethod m) p = .ok s' ∧ s'.Obeys m.code.listing T := by
  obtain ⟨id, x, t, hp, ht, hfits⟩ := hs.fits p f hf
  obtain ⟨pre, post, hlisting, hpre⟩ := split_at hp
  obtain ⟨t', hrule, htargets, hfalls, hcatch⟩ := hT.line pre id x post hlisting t ht
  obtain ⟨r, hstep, hafter⟩ := hrule.sound hfits id.toNat
  -- the branches, the next instruction and the handlers are reached one after the other
  obtain ⟨s₁, hflow₁, hobeys₁, hkeeps₁⟩ := hs.flow_targets hm hT.support htargets hafter id
  have hsize : (Layout.ofMethod m).lines.size = m.code.listing.length := by simp [Layout.ofMethod]
  have hnext : ∃ s₂, s₁.flowNext (.ofMethod m) p id x r.frame = .ok s₂ ∧ s₂.Obeys m.code.listing T ∧
      s₁.Keeps s₂ := by
    rw [flowNext, hsize]
    split
    · next hfall =>
      obtain ⟨q, rest, rfl, hadmits⟩ := hfalls hfall
      have hq : m.code.listing[p + 1]? = some q := by
        rw [hlisting, ← hpre, List.getElem?_append_right (by omega)]
        simp
      obtain ⟨s₂, hflow₂, hobeys₂, hkeeps₂⟩ := hobeys₁.flow hq hadmits hafter id
      refine ⟨s₂, ?_, hobeys₂, hkeeps₂⟩
      have hlast : p + 1 ≠ m.code.listing.length := by
        have := (List.getElem?_eq_some_iff.mp hq).1
        omega
      rw [if_neg hlast, hflow₂]
    · exact ⟨s₁, rfl, hobeys₁, .refl s₁⟩
  obtain ⟨s₂, hflow₂, hobeys₂, hkeeps₂⟩ := hnext
  obtain ⟨g, hg⟩ := hkeeps₁.trans hkeeps₂ p f hf
  obtain ⟨s', hflow, hobeys⟩ := hobeys₂.flow_handlers hm hT.support hp ht hg hafter fun h hh hcovers => by
    obtain ⟨hbefore, hbehind⟩ := start_before hm (hstarts h hh) hcovers hlisting hpre
    exact hcatch h hh hbefore hbehind
  refine ⟨s', ?_, hobeys⟩
  have hline : (Layout.ofMethod m).lines[p]? = some (id, x) := by simpa [Layout.ofMethod] using hp
  have hmapped : (step id.toNat x f).mapError (FlowError.step id) = .ok r := Outcome.mapError_ok.mpr hstep
  rw [visit_eq hline hf]
  exact except_bind_ok.mpr ⟨r, hmapped, except_bind_ok.mpr ⟨s₁, hflow₁, except_bind_ok.mpr ⟨s₂, hflow₂, hflow⟩⟩⟩

/-- A run comes to an end, and its frames fit. -/
theorem Obeys.run (hm : m.code.WellLinked) (hstarts : ∀ h ∈ m.handlers, h.start ∈ m.code.listing.map Prod.fst)
    (hT : Typed (fun _ => KindStep fun _ => false) m.handlers m.code.listing T) (fuel : Nat)
    (hs : s.Obeys m.code.listing T) : ∃ s', s.run (.ofMethod m) fuel = .ok s' ∧ s'.Obeys m.code.listing T := by
  induction fuel generalizing s with
  | zero => exact ⟨s, rfl, hs⟩
  | succ fuel ih =>
    rw [FlowState.run]
    split
    · exact ⟨s, rfl, hs⟩
    · next p rest hqueue =>
      obtain ⟨f, hf⟩ := hs.queued p (by simp [hqueue])
      have hpopped : FlowState.Obeys m.code.listing T { s with queue := rest } :=
        ⟨hs.size, hs.fits, fun q hq => hs.queued q (by simp [hqueue, hq])⟩
      obtain ⟨s', hvisit, hobeys⟩ := hpopped.visit hm hstarts hT (f := f) hf
      rw [hvisit]
      exact ih hobeys

end FlowState

/-! ## Analysis of verified methods -/

namespace Analysis

/-- There are results if every line with a frame can be executed. -/
theorem results_exists {ls : List ((InsnId × Insn) × Option Frame)}
    (h : ∀ p ∈ ls, ∀ f, p.2 = some f → ∃ r, step p.1.1.toNat p.1.2 f = .ok r) : ∃ rs, results ls = .ok rs := by
  induction ls with
  | nil => exact ⟨[], rfl⟩
  | cons p ls ih =>
    obtain ⟨⟨id, x⟩, f⟩ := p
    obtain ⟨rs, hrs⟩ := ih fun q hq => h q (by simp [hq])
    cases f with
    | none => exact ⟨(id, none) :: rs, by simp only [results, hrs]; rfl⟩
    | some f =>
      obtain ⟨r, hr⟩ := h _ List.mem_cons_self f rfl
      have hmapped : (step id.toNat x f).mapError (FlowError.step id) = .ok r := Outcome.mapError_ok.mpr hr
      exact ⟨(id, some r) :: rs, by simp only [results, hmapped, hrs]; rfl⟩

theorem entry_fits (params : List ValueType) : (entry params).Fits (.entry params) := by
  refine ⟨rfl, ?_⟩
  rintro j κ ⟨k, t, rfl, hk, hκ⟩
  have htop : t ≠ .top := by
    rintro rfl
    cases hκ
  refine ⟨⟨t, .empty, .singleton k⟩, ?_, hκ⟩
  show ((entry params).locals[k]?).join = _
  simp [entry, hk, htop]

end Analysis

/-- What lies on the stack before a call conforms to its descriptor: every argument has the kind of its
parameter, and the receiver is a reference. -/
def Frame.Conforms (f : Frame) (op : Opcode) (m : Member) : Prop :=
  ∃ t args, MethodType.parse m.desc = .ok t ∧ f.callArgs op m = .ok args ∧
    args.map Value.kind? = (if op.hasReceiver then .objectClass :: t.params else t.params).map ValueType.kind?

/-- Every reachable call finds what it takes on the stack. -/
def Analysis.CallsConform (a : Analysis) : Prop :=
  ∀ id op m itf f, ((id, .call op m itf), f) ∈ a.reachable → f.Conforms op m

/-- Whether what lies on the stack before a call conforms to its descriptor. -/
def Frame.conforms (f : Frame) (op : Opcode) (m : Member) : Bool :=
  match MethodType.parse m.desc, f.callArgs op m with
  | .ok t, .ok args => args.map Value.kind? ==
      (if op.hasReceiver then .objectClass :: t.params else t.params).map ValueType.kind?
  | _, _ => false

theorem Frame.conforms_iff {op : Opcode} {m : Member} : f.conforms op m = true ↔ f.Conforms op m := by
  rw [Frame.conforms]
  constructor
  · intro h
    split at h
    · next t args ht hargs => exact ⟨t, args, ht, hargs, eq_of_beq h⟩
    · cases h
  · rintro ⟨t, args, ht, hargs, hkinds⟩
    simp only [ht, hargs, hkinds, beq_self_eq_true]

instance (a : Analysis) : Decidable a.CallsConform :=
  decidable_of_iff ((a.reachable.all fun l => match l.1.2 with
    | .call op m _ => l.2.conforms op m
    | _ => true) = true) (by
      rw [List.all_eq_true]
      constructor
      · intro h id op m itf f hmem
        exact Frame.conforms_iff.mp (h _ hmem)
      · rintro h ⟨⟨id, x⟩, f⟩ hmem
        cases x with
        | call op m itf => exact Frame.conforms_iff.mpr (h id op m itf f hmem)
        | _ => rfl)

/-- What a call finds conforms to it. -/
theorem KindStep.conforms {first : Int → Bool} {op : Opcode} {m : Member} {itf : Bool} {t' : FrameType}
    (h : KindStep first (.call op m itf) t t') (hf : f.Fits t) : f.Conforms op m := by
  obtain ⟨ks, ks', rest, hks, -, htyping⟩ := h
  generalize t.locals = L, t'.locals = L' at htyping
  cases htyping with
  | @regular _ g takes _ _ hg _ hcall _ =>
    simp only [Insn.signature?] at hg
    split at hg
    case h_2 => cases hg
    case h_1 u _ hu =>
      obtain rfl := Option.some.inj hg
      have hstack := hf.stack
      rw [hks, List.map_append] at hstack
      obtain ⟨vs, vrest, hvs, htop, -⟩ := List.map_eq_append_iff.mp hstack
      have hkinds : vs.reverse.map Value.kind? =
          (if op.hasReceiver then .objectClass :: u.params else u.params).map ValueType.kind? := by
        rw [List.map_reverse, htop, ← List.map_reverse, List.reverse_reverse, hcall rfl]
      have hlength : vs.length = u.params.length + (if op.hasReceiver then 1 else 0) := by
        have := congrArg List.length hkinds
        rw [List.length_map, List.length_map, List.length_reverse] at this
        rw [this]
        split <;> simp
      refine ⟨u, vs.reverse, hu, ?_, hkinds⟩
      simp only [Frame.callArgs, hu, hvs, ← hlength, List.length_append]
      rw [if_neg (by omega), List.take_left']
      rfl

/-- The frames of an analysis agree with a table. -/
def Analysis.FitsTable (a : Analysis) (T : TypeTable) : Prop :=
  ∀ id x f, ((id, x), f) ∈ a.reachable → ∃ t, T id = some t ∧ f.Fits t

/-- A verified method is analysed successfully. The frames agree with the table, and calls conform. -/
theorem Method.Verifies.analysis {m : Method} {owner : Text} {T : TypeTable} (h : m.Verifies owner T)
    (hm : m.code.WellLinked) (hstarts : ∀ h ∈ m.handlers, h.start ∈ m.code.listing.map Prod.fst) :
    ∃ a, Analysis.ofMethod owner m = .ok a ∧ a.CallsConform ∧ a.FitsTable T := by
  obtain ⟨params, hparams, hentry⟩ := h.entry
  cases hlisting : m.code.listing with
  | nil =>
    refine ⟨⟨.ofMethod m, #[], #[], [], .ofUses [], rfl⟩, ?_, ?_, ?_⟩
    · simp [Analysis.ofMethod, Layout.ofMethod, hlisting, pure, Except.pure]
    · intro id op member itf f hmem
      simp [Analysis.reachable, Analysis.framed] at hmem
    · intro id x f hmem
      simp [Analysis.reachable, Analysis.framed] at hmem
  | cons p rest =>
    -- the worklist starts with the parameters at the first instruction
    have hstart : FlowState.Obeys m.code.listing T ⟨Array.replicate (Layout.ofMethod m).lines.size none, []⟩ := by
      refine ⟨by simp [Layout.ofMethod], ?_, by simp⟩
      intro q f hq
      simp [Array.getElem?_replicate] at hq
    have hfirst : m.code.listing[0]? = some (p.1, p.2) := by rw [hlisting]; rfl
    obtain ⟨s₁, hflow, hobeys₁, -⟩ := hstart.flow hfirst (hentry p rest hlisting) (Analysis.entry_fits params) .none
    obtain ⟨s, hrun, hobeys⟩ := hobeys₁.run hm hstarts h.typed ((Layout.ofMethod m).visitBound params.length)
    have hlines : ∀ q ∈ (Layout.ofMethod m).lines.toList.zip s.frames.toList, ∀ f, q.2 = some f →
        ∃ t t', T q.1.1 = some t ∧ f.Fits t ∧ KindStep (fun _ => false) q.1.2 t t' := by
      rintro ⟨⟨id, x⟩, g⟩ hq f rfl
      obtain ⟨i, hi⟩ := List.getElem?_of_mem hq
      obtain ⟨hline, hframe⟩ := List.getElem?_zip_eq_some.mp hi
      have hi' : m.code.listing[i]? = some (id, x) := by simpa [Layout.ofMethod] using hline
      obtain ⟨id', x', t, hi'', ht, hfits⟩ := hobeys.fits i f (by simpa using hframe)
      obtain ⟨rfl, rfl⟩ := Prod.mk.inj (Option.some.inj (hi'.symm.trans hi''))
      obtain ⟨pre, post, hsplit, -⟩ := split_at hi'
      obtain ⟨t', hrule, -⟩ := h.typed.line pre id x post hsplit t ht
      exact ⟨t, t', ht, hfits, hrule⟩
    obtain ⟨rs, hrs⟩ := Analysis.results_exists fun q hq f hf => by
      obtain ⟨t, t', -, hfits, hrule⟩ := hlines q hq f hf
      obtain ⟨r, hr, -⟩ := hrule.sound hfits q.1.1.toNat
      exact ⟨r, hr⟩
    refine ⟨⟨.ofMethod m, s.frames, (rs.map fun r => r.2.map StepResult.frame).toArray,
      rs.filterMap fun r => r.2.map fun s => (r.1, s.used), _, rfl⟩, ?_, ?_, ?_⟩
    · have hne : (Layout.ofMethod m).lines.isEmpty = false := by simp [Layout.ofMethod, hlisting]
      simp only [Analysis.ofMethod, hne, Bool.false_eq_true, if_false]
      exact except_bind_ok.mpr ⟨params, Outcome.ofExcept_ok.mpr hparams, except_bind_ok.mpr ⟨s₁, hflow,
        except_bind_ok.mpr ⟨s, hrun, except_bind_ok.mpr ⟨rs, hrs, rfl⟩⟩⟩⟩
    · intro id op member itf f hmem
      obtain ⟨t, t', -, hfits, hrule⟩ := hlines _ (Analysis.mem_framed_of_mem_reachable hmem) f rfl
      exact hrule.conforms hfits
    · intro id x f hmem
      obtain ⟨t, -, ht, hfits, -⟩ := hlines _ (Analysis.mem_framed_of_mem_reachable hmem) f rfl
      exact ⟨t, ht, hfits⟩

end CoordSplit
