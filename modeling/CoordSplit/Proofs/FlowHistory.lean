import CoordSplit.Proofs.FlowBound

/-!
# The history of an analysis

The loop of the analysis takes positions off its queue and merges frames into those known at other positions. A
history (`Layout.History`) lists the positions taken and the positions whose frame a merge raised: set for the first
time, or made to allow more in the type, the producers or the slots of an entry.

For every method the loop comes to an end, with nothing left to be looked at or with a visit that fails
(`Analysis.exists_history`); every position that is taken was queued because its frame was raised since it was last
taken (`Layout.History.raised_of_queued`); and no history raises frames more often than the bound on visits
(`Layout.History.raises_le`).
-/

set_option autoImplicit false

namespace CoordSplit

open FlowState

/-! ## What rises -/

/-- The second value allows more than the first, in its type, its producers or its slots. -/
structure Value.Rises (v w : Value) : Prop where
  le : v ≤ w
  more : v.type ≠ w.type ∨ ¬ w.prod ⊆ v.prod ∨ ¬ w.slots ⊆ v.slots

/-- A slot is set, or its value rises. -/
inductive Value.RisesFrom : Option Value → Value → Prop
  | unset {w : Value} : RisesFrom none w
  | rises {v w : Value} (h : v.Rises w) : RisesFrom (some v) w

/-- An entry of the stack or a local slot rises. -/
inductive Frame.Rises (f g : Frame) : Prop
  | entry {i : Nat} {v w : Value} (hv : f.stack[i]? = some v) (hw : g.stack[i]? = some w) (h : v.Rises w) : Rises f g
  | slot {k : Nat} {w : Value} (hw : g.localAt k = some w) (h : Value.RisesFrom (f.localAt k) w) : Rises f g

/-- A frame is set, or it rises. -/
inductive Frame.RisesFrom : Option Frame → Frame → Prop
  | unset {g : Frame} : RisesFrom none g
  | rises {f g : Frame} (h : f.Rises g) : RisesFrom (some f) g

theorem Value.rises_merge {v w : Value} (h : (v.merge w).equal v = false) : v.Rises (v.merge w) := by
  have hle := le_merge_left v w
  refine ⟨hle, ?_⟩
  by_contra hsame
  simp only [not_or, not_not] at hsame
  obtain ⟨htype, hprod, hslots⟩ := hsame
  rw [equal_iff.mpr ⟨htype.symm, IndexSet.mask_eq_of_subset hprod hle.prod,
    IndexSet.mask_eq_of_subset hslots hle.slots⟩] at h
  cases h

theorem Value.Rises.not_ge {v w : Value} (h : v.Rises w) : ¬ w ≤ v := by
  intro hle
  rcases h.more with htype | hprod | hslots
  · exact htype (le_antisymm (type_le h.le) (type_le hle))
  · exact hprod hle.prod
  · exact hslots hle.slots

namespace Frame

variable {f g merged : Frame}

/-- A stack that changes has an entry that rises. -/
theorem rises_mergeStacks {vs ws stack : List Value} (h : mergeStacks vs ws = (stack, .ok true)) :
    ∃ (i : Nat) (v w : Value), vs[i]? = some v ∧ stack[i]? = some w ∧ v.Rises w := by
  induction vs generalizing ws stack with
  | nil => cases ws <;> simp [mergeStacks] at h
  | cons v vs ih =>
    cases ws with
    | nil => simp [mergeStacks] at h
    | cons w ws =>
      rw [mergeStacks] at h
      split at h
      · simp at h
      · next rest grew hrest =>
        split at h
        · simp at h
        · obtain ⟨rfl, hgrew⟩ := Prod.mk.inj h
          rcases Bool.or_eq_true_iff.mp (Except.ok.inj hgrew) with rfl | hhere
          · obtain ⟨i, v', w', hv, hw, hrises⟩ := ih hrest
            exact ⟨i + 1, v', w', hv, hw, hrises⟩
          · exact ⟨0, v, v.merge w, rfl, rfl, Value.rises_merge (by simpa using hhere)⟩

theorem rises_mergeUnset {x y : Option Value} (h : (mergeUnset x y).2 = true) :
    ∃ w, (mergeUnset x y).1 = some w ∧ Value.RisesFrom x w := by
  cases y with
  | none => cases h
  | some w =>
    cases x with
    | none => exact ⟨w, rfl, .unset⟩
    | some v => exact ⟨v.merge w, rfl, .rises (Value.rises_merge (by simpa [mergeUnset] using h))⟩

/-- Locals that change have one that rises. -/
theorem rises_mergeLocals {xs ys : List (Option Value)} (h : (mergeLocals xs ys).2 = true) :
    ∃ (k : Nat) (w : Value), ((mergeLocals xs ys).1[k]?).join = some w ∧ Value.RisesFrom (xs[k]?).join w := by
  induction ys generalizing xs with
  | nil => cases xs <;> cases h
  | cons y ys ih =>
    cases xs with
    | nil =>
      rcases Bool.or_eq_true_iff.mp h with hhere | hrest
      · obtain ⟨w, rfl⟩ := Option.isSome_iff_exists.mp hhere
        exact ⟨0, w, rfl, .unset⟩
      · obtain ⟨k, w, hw, hrises⟩ := ih hrest
        exact ⟨k + 1, w, hw, hrises⟩
    | cons x xs =>
      rcases Bool.or_eq_true_iff.mp h with hhere | hrest
      · obtain ⟨w, hw, hrises⟩ := rises_mergeUnset hhere
        exact ⟨0, w, hw, hrises⟩
      · obtain ⟨k, w, hw, hrises⟩ := ih hrest
        exact ⟨k + 1, w, hw, hrises⟩

/-- A merge that reports a change has raised an entry. -/
theorem rises_merge (h : f.merge g = (merged, .ok true)) : f.Rises merged := by
  obtain ⟨-, grew, hstacks, hlocals, hchanged⟩ := merge_ok h
  rcases Bool.or_eq_true_iff.mp hchanged.symm with rfl | hgrew
  · obtain ⟨i, v, w, hv, hw, hrises⟩ := rises_mergeStacks hstacks
    exact .entry hv hw hrises
  · obtain ⟨k, w, hw, hrises⟩ := rises_mergeLocals hgrew
    rw [← hlocals] at hw
    exact .slot (k := k) hw hrises

/-- A frame that has risen is not covered by what it was. -/
theorem Rises.not_covers (h : f.Rises g) : ¬ f.Covers g := by
  intro hcovers
  cases h with
  | @entry i v w hv hw hrises =>
    have hget := (List.forall₂_iff_get.mp hcovers.stack).2
    obtain ⟨hi, rfl⟩ := List.getElem?_eq_some_iff.mp hw
    obtain ⟨hi', rfl⟩ := List.getElem?_eq_some_iff.mp hv
    exact hrises.not_ge (hget i hi hi')
  | slot hw hrises =>
    obtain ⟨v, hv, hle⟩ := hcovers.locals _ _ hw
    rw [hv] at hrises
    cases hrises with
    | rises hrises => exact hrises.not_ge hle

end Frame

/-! ## Merges -/

/-- What happens in the loop of an analysis. -/
inductive FlowEvent where
  /-- The position is taken off the queue. -/
  | take (p : Nat)
  /-- A merge raises the frame before the position. -/
  | raise (p : Nat)
  deriving DecidableEq

/-- The number of times that frames are raised. -/
def FlowEvent.raises (es : List FlowEvent) : Nat := es.countP fun e => match e with
  | .take _ => false
  | .raise _ => true

namespace FlowState

variable {l : Layout} {s s' s'' : FlowState} {source : InsnId} {p q : Nat} {f : Frame} {es ms : List FlowEvent}

/-- Frames are merged one after the other, into those known at their positions; the merges that raise a frame are
listed, and the others change nothing. -/
inductive Merges (l : Layout) : FlowState → List FlowEvent → FlowState → Prop
  | refl (s : FlowState) : Merges l s [] s
  | raise {s s' s'' : FlowState} {es : List FlowEvent} {source : InsnId} {q : Nat} {f g : Frame} {known : Option Frame}
      (hmerges : Merges l s es s') (hflow : s'.flow l source (some q) f = .ok s'') (hknown : s'.frames[q]? = some known)
      (hg : s''.frames[q]? = some (some g)) (hrises : Frame.RisesFrom known g) : Merges l s (es ++ [.raise q]) s''
  | keep {s s' s'' : FlowState} {es : List FlowEvent} {source : InsnId} {q : Nat} {f : Frame}
      (hmerges : Merges l s es s') (hflow : s'.flow l source (some q) f = .ok s'') (hqueue : s''.queue = s'.queue) :
      Merges l s es s''

/-- A frame that flows to a position raises the one known there, or nothing is queued. -/
theorem flow_cases (hflow : s.flow l source (some p) f = .ok s') :
    (∃ known g, s.frames[p]? = some known ∧ s'.frames[p]? = some (some g) ∧ Frame.RisesFrom known g) ∨
      s'.queue = s.queue := by
  obtain ⟨known, g, changed, hknown, hjoins, rfl⟩ := flow_ok hflow
  have hlt : p < s.frames.size := (Array.getElem?_eq_some_iff.mp hknown).1
  have hset : (s.frames.setIfInBounds p (some g))[p]? = some (some g) := by simp [hlt]
  cases hjoins with
  | fresh => exact .inl ⟨none, f, hknown, hset, .unset⟩
  | @meets known _ _ hmerge =>
    cases changed with
    | true => exact .inl ⟨some known, g, hknown, hset, .rises (Frame.rises_merge hmerge)⟩
    | false => exact .inr rfl

/-- Raising a frame gains weight. -/
theorem flow_weight_lt {known : Option Frame} {g : Frame} (hflow : s.flow l source (some p) f = .ok s')
    (hknown : s.frames[p]? = some known) (hg : s'.frames[p]? = some (some g)) (hrises : Frame.RisesFrom known g) :
    s.weight < s'.weight := by
  obtain ⟨known', g', changed, hknown', hjoins, rfl, hgain⟩ := flow_gains hflow
  cases changed with
  | true => exact Nat.lt_of_succ_le hgain
  | false =>
    obtain rfl := Option.some.inj (hknown.symm.trans hknown')
    have hlt : p < s.frames.size := (Array.getElem?_eq_some_iff.mp hknown).1
    obtain rfl : g' = g := by simpa [hlt] using hg
    cases hjoins with
    | meets hmerge =>
      cases hrises with
      | rises hrises => exact absurd ((Frame.merge_covers hmerge).2.2 rfl).covers hrises.not_covers

theorem Sends.merges {x : Insn} {after : Frame} (h : Sends l p source x after s s') : ∃ es, Merges l s es s' := by
  induction h with
  | refl => exact ⟨[], .refl _⟩
  | step _ _ hflow ih =>
    obtain ⟨es, hmerges⟩ := ih
    rcases flow_cases hflow with ⟨known, g, hknown, hg, hrises⟩ | hqueue
    · exact ⟨_, hmerges.raise hflow hknown hg hrises⟩
    · exact ⟨es, hmerges.keep hflow hqueue⟩

theorem mem_queue_of_flow (hflow : s.flow l source (some p) f = .ok s') (hq : q ∈ s'.queue) : q = p ∨ q ∈ s.queue := by
  obtain ⟨known, g, changed, -, -, rfl⟩ := flow_ok hflow
  cases changed with
  | true => exact mem_queue_enqueue.mp hq
  | false => exact .inr hq

theorem Merges.raises_eq (h : Merges l s es s') : FlowEvent.raises es = es.length := by
  induction h with
  | refl => rfl
  | raise _ _ _ _ _ ih => simpa [FlowEvent.raises, List.countP_append] using ih
  | keep _ _ _ ih => exact ih

theorem Merges.length_queue_le (h : Merges l s es s') : s'.queue.length ≤ s.queue.length + es.length := by
  induction h with
  | refl => simp
  | @raise s' s'' es source q f g known _ hflow _ _ _ ih =>
    have hone : s''.queue.length ≤ s'.queue.length + 1 := by
      obtain ⟨_, _, changed, -, -, rfl⟩ := flow_ok hflow
      cases changed with
      | true => exact length_queue_enqueue s' q
      | false => exact Nat.le_succ _
    rw [List.length_append, List.length_singleton]
    omega
  | keep _ _ hqueue ih => rwa [hqueue]

theorem Merges.length_le_weight (h : Merges l s es s') : es.length + s.weight ≤ s'.weight := by
  induction h with
  | refl => simp
  | raise _ hflow hknown hg hrises ih =>
    have := flow_weight_lt hflow hknown hg hrises
    rw [List.length_append, List.length_singleton]
    omega
  | keep _ hflow hqueue ih =>
    have := flow_weight hflow
    rw [hqueue] at this
    omega

theorem eq_start (hflow : flow l .none (some 0) f ⟨Array.replicate l.lines.size none, []⟩ = .ok s) :
    0 < l.lines.size ∧ s = start l f := by
  have hpos : 0 < l.lines.size := by
    obtain ⟨_, _, _, hknown, -⟩ := flow_ok hflow
    simpa using (Array.getElem?_eq_some_iff.mp hknown).1
  exact ⟨hpos, Except.ok.inj (hflow.symm.trans (flow_start hpos f))⟩

end FlowState

/-! ## Histories -/

/-- The events of an analysis that enters the code with the frame `entry`, and the state that they lead to. -/
inductive Layout.History (l : Layout) (entry : Frame) : List FlowEvent → FlowState → Prop
  | enter {s : FlowState}
      (hflow : flow l .none (some 0) entry ⟨Array.replicate l.lines.size none, []⟩ = .ok s) :
      History l entry [.raise 0] s
  | turn {es ms : List FlowEvent} {s s' : FlowState} {p : Nat} {rest : List Nat} (hhistory : History l entry es s)
      (hqueue : s.queue = p :: rest) (hvisit : visit l p { s with queue := rest } = .ok s')
      (hmerges : FlowState.Merges l { s with queue := rest } ms s') : History l entry (es ++ .take p :: ms) s'

namespace Layout.History

variable {l : Layout} {entry : Frame} {es : List FlowEvent} {s : FlowState}

theorem raises_turn (es : List FlowEvent) (p : Nat) {ms : List FlowEvent} {s' : FlowState}
    (hmerges : FlowState.Merges l s ms s') :
    FlowEvent.raises (es ++ .take p :: ms) = FlowEvent.raises es + ms.length := by
  rw [← hmerges.raises_eq]
  simp [FlowEvent.raises, List.countP_append]

/-- No position is taken more often than it was raised. -/
theorem length_le (h : l.History entry es s) : es.length + s.queue.length ≤ 2 * FlowEvent.raises es := by
  induction h with
  | enter hflow =>
    rw [(eq_start hflow).2]
    rfl
  | turn _ hqueue _ hmerges ih =>
    have hmore := hmerges.length_queue_le
    rw [hqueue, List.length_cons] at ih
    rw [raises_turn _ _ hmerges, List.length_append, List.length_cons]
    simp only at hmore
    omega

theorem raises_le_weight (h : l.History entry es s) : FlowEvent.raises es ≤ s.weight := by
  induction h with
  | enter hflow =>
    have hgain := flow_weight hflow
    rw [(eq_start hflow).2] at hgain ⊢
    exact le_trans (Nat.le_add_right _ _) (hgain.trans_eq (Nat.zero_add _))
  | @turn es ms s s' p rest _ _ _ hmerges ih =>
    have hmore := hmerges.length_le_weight
    have hsame : weight { s with queue := rest } = s.weight := rfl
    rw [raises_turn _ _ hmerges]
    omega

theorem bounded {ids slots : Nat} (hl : l.Sized ids slots) (hentry : entry.Within ids slots)
    (hstack : entry.stack = []) (h : l.History entry es s) : s.Bounded ids slots ∧ s.frames.size = l.lines.size := by
  induction h with
  | enter hflow =>
    obtain ⟨hpos, rfl⟩ := eq_start hflow
    exact ⟨bounded_start hpos hentry hstack, by simp [start]⟩
  | @turn _ _ s _ _ rest _ _ hvisit _ ih =>
    obtain ⟨_, _, _, _, -, -, -, hsends, -⟩ := visit_ok hvisit
    have hpopped : FlowState.Bounded ids slots { s with queue := rest } := ⟨ih.1.within, ih.1.height⟩
    exact ⟨(hpopped.visit hl hvisit).1, hsends.extends.size.trans ih.2⟩

end Layout.History

/-! ## The loop ends -/

theorem FlowState.visit_merges {l : Layout} {p : Nat} {s s' : FlowState} (hvisit : s.visit l p = .ok s') :
    ∃ ms, Merges l s ms s' := by
  obtain ⟨_, _, _, _, -, -, -, hsends, -⟩ := visit_ok hvisit
  exact hsends.merges

/-- The loop of an analysis that enters the code comes to an end. After the events of some history nothing is left to be
looked at, or a visit fails. -/
theorem Analysis.exists_history {owner : Text} {m : Method} {params : List ValueType}
    (hparams : m.params owner = .ok params) (hcode : m.code.listing ≠ []) :
    ∃ es s, (Layout.ofMethod m).History (entry params) es s ∧
      (s.queue = [] ∧ loop m params = .ok s ∧ (∀ a, ofMethod owner m = .ok a → a.before = s.frames) ∨
        ∃ p rest e, s.queue = p :: rest ∧ visit (.ofMethod m) p { s with queue := rest } = .error e ∧
          loop m params = .error e ∧ ofMethod owner m = .error e) := by
  have hpos : 0 < (Layout.ofMethod m).lines.size := by
    simpa [Layout.ofMethod] using List.length_pos_iff.mpr hcode
  have hends := loop_ends (P := fun s => ∃ es, (Layout.ofMethod m).History (entry params) es s) hcode params (by
    rintro s p rest s' ⟨es, hhistory⟩ hqueue hvisit
    obtain ⟨ms, hmerges⟩ := visit_merges hvisit
    exact ⟨_, hhistory.turn hqueue hvisit hmerges⟩) ⟨_, .enter (flow_start hpos (entry params))⟩
  rcases hends with ⟨s, ⟨es, hhistory⟩, hqueue, hloop⟩ | ⟨s, p, rest, e, ⟨es, hhistory⟩, hqueue, hvisit, hloop⟩
  · have hframes := ((ofMethod_of_loop hparams hcode).2 s hloop).1
    exact ⟨es, s, hhistory, .inl ⟨hqueue, hloop, hframes⟩⟩
  · have hfailed := (ofMethod_of_loop hparams hcode).1 e hloop
    exact ⟨es, s, hhistory, .inr ⟨p, rest, e, hqueue, hvisit, hloop, hfailed⟩⟩

/-- No history raises frames more often than the bound on visits. -/
theorem Layout.History.raises_le {m : Method} {params : List ValueType} {es : List FlowEvent} {s : FlowState}
    (h : (Layout.ofMethod m).History (Analysis.entry params) es s) :
    FlowEvent.raises es ≤ (Layout.ofMethod m).visitBound params.length := by
  obtain ⟨hbounded, hsize⟩ :=
    h.bounded (Layout.sized m params.length) (Analysis.entry_within params (le_max_left _ _)) rfl
  have hweight := hbounded.weight_le
  rw [hsize] at hweight
  calc FlowEvent.raises es ≤ s.weight := h.raises_le_weight
    _ ≤ _ := hweight
    _ ≤ _ := Nat.le_succ _
    _ ≤ (Layout.ofMethod m).visitBound params.length := Layout.visitBound_ge _ _

end CoordSplit
