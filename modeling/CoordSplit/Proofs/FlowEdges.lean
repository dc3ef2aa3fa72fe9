import CoordSplit.Proofs.FlowOrder

/-!
# Exploring a method

`Layout.Flows` says where control can go from a position and with which frame. A visit of the worklist sends frames
along these edges (`FlowState.visit_ok`), and an exploration is a sequence of visits to queued positions in whatever
order (`FlowState.Explores`); the analysis makes the one that takes the least position first (`Explores.turn`).

However the positions are visited, every position that is not queued has all its edges accounted for
(`FlowState.Accounted`): what can follow it is covered by what is known there.
-/

set_option autoImplicit false

namespace CoordSplit

/-! ## Edges -/

/-- The frame with which a handler is entered: just the exception on the stack. -/
def Handler.entry (h : Handler) (locals : List (Option Value)) : Frame :=
  ⟨[.produced (if h.type.isEmpty then .throwable else .object h.type) h.handler.toNat], locals⟩

/-- Where control can go from the instruction `x` at position `p`, and with which frame, if the frame after it is
`after` and the locals before it are `before`. -/
inductive Layout.Flows (l : Layout) (p : Nat) (x : Insn) (before : List (Option Value)) (after : Frame) :
    Nat → Frame → Prop
  | branch {t : InsnId} {q : Nat} (ht : t ∈ x.targets) (hq : l.position? t = some q) : Flows l p x before after q after
  | next (hfalls : x.opcode.falls = true) : Flows l p x before after (p + 1) after
  | raise {h : Handler} {q : Nat} {locals : List (Option Value)} (hh : h ∈ l.method.handlers)
      (hcovers : FlowState.covers l h p = true) (hq : l.position? h.handler = some q)
      (hlocals : locals = before ∨ locals = after.locals) : Flows l p x before after q (h.entry locals)

/-- Everything that the instruction `x` at position `p` branches to is in the code, and so are the handlers that it
can raise an exception to. -/
structure Layout.Placed (l : Layout) (p : Nat) (x : Insn) : Prop where
  targets : ∀ t ∈ x.targets, ∃ q, l.position? t = some q
  handlers : ∀ h ∈ l.method.handlers, FlowState.covers l h p = true → ∃ q, l.position? h.handler = some q

section

variable {l : Layout} {p q : Nat} {x : Insn} {f g h after after' : Frame}

/-- From more locals, a handler is entered with more. -/
theorem Handler.entry_covers (e : Handler) {locals locals' : List (Option Value)}
    (hlocals : Frame.LocalsCover ⟨[], locals'⟩ ⟨[], locals⟩) : (e.entry locals').CoversEvenly (e.entry locals) :=
  ⟨.cons (.refl _) .nil, hlocals⟩

/-- From more, more flows along the same edge. -/
theorem Layout.Flows.mono (hflows : l.Flows p x f.locals after q h) (hbefore : g.LocalsCover f)
    (hafter : after'.CoversEvenly after) :
    ∃ h', l.Flows p x g.locals after' q h' ∧ h'.CoversEvenly h := by
  cases hflows with
  | branch ht hq => exact ⟨after', .branch ht hq, hafter⟩
  | next hfalls => exact ⟨after', .next hfalls, hafter⟩
  | raise hh hcovers hq hlocals =>
    rcases hlocals with rfl | rfl
    · exact ⟨_, .raise hh hcovers hq (.inl rfl), Handler.entry_covers _ hbefore⟩
    · exact ⟨_, .raise hh hcovers hq (.inr rfl), Handler.entry_covers _ hafter.locals⟩

end

/-! ## What a frame that arrives changes -/

/-- A frame arrives where `known` is known; then `g` is known, and `changed` says whether that is news. -/
inductive Frame.Joins (f : Frame) : Option Frame → Frame → Bool → Prop
  | fresh : Joins f none f true
  | meets {known g : Frame} {changed : Bool} (hmerge : known.merge f = (g, .ok changed)) : Joins f (some known) g changed

namespace FlowState

variable {l : Layout} {s s' s'' : FlowState} {source : InsnId} {p q : Nat} {f g h : Frame}

/-- What a frame that flows to a position does to the state. -/
theorem flow_ok (hflow : s.flow l source (some p) f = .ok s') :
    ∃ known g changed, s.frames[p]? = some known ∧ f.Joins known g changed ∧
      s' = ⟨s.frames.setIfInBounds p (some g), if changed then (s.enqueue p).queue else s.queue⟩ := by
  rw [flow] at hflow
  simp only at hflow
  split at hflow
  · cases hflow
  · next hnone =>
    obtain rfl := Except.ok.inj hflow
    refine ⟨none, f, true, hnone, .fresh, ?_⟩
    simp only [enqueue, if_true]
    split <;> rfl
  · next known hknown =>
    split at hflow
    · cases hflow
    · next merged changed hmerge =>
      obtain rfl := Except.ok.inj hflow
      refine ⟨some known, merged, changed, hknown, .meets hmerge, ?_⟩
      cases changed with
      | false => rfl
      | true =>
        simp only [enqueue, if_true]
        split <;> rfl

/-- Nothing is forgotten, and where more is known than before, the position is queued. -/
structure Extends (s s' : FlowState) : Prop where
  size : s'.frames.size = s.frames.size
  queued : ∀ p ∈ s.queue, p ∈ s'.queue
  grows : ∀ (p : Nat) (f : Frame), s.frames[p]? = some (some f) → ∃ g, s'.frames[p]? = some (some g) ∧ g.Covers f
  kept : ∀ (p : Nat) (g : Frame), s'.frames[p]? = some (some g) → p ∉ s'.queue →
    ∃ f, s.frames[p]? = some (some f) ∧ f.CoversEvenly g

/-- Every state extends itself. -/
theorem Extends.refl (s : FlowState) : s.Extends s :=
  ⟨rfl, fun _ h => h, fun _ f hf => ⟨f, hf, .refl f⟩, fun _ g hg _ => ⟨g, hg, .refl g⟩⟩

/-- Extensions add up. -/
theorem Extends.trans (h : s.Extends s') (h' : s'.Extends s'') : s.Extends s'' := by
  refine ⟨h'.size.trans h.size, fun p hp => h'.queued p (h.queued p hp), ?_, ?_⟩
  · intro p f hf
    obtain ⟨g, hg, hgf⟩ := h.grows p f hf
    obtain ⟨g', hg', hg'g⟩ := h'.grows p g hg
    exact ⟨g', hg', hg'g.trans hgf⟩
  · intro p g' hg' hp
    obtain ⟨g, hg, hgg'⟩ := h'.kept p g' hg' hp
    obtain ⟨f, hf, hfg⟩ := h.kept p g hg fun hqueue => hp (h'.queued p hqueue)
    exact ⟨f, hf, hfg.trans hgg'⟩

/-- What is known at the position covers the frame. -/
def Reaches (s : FlowState) (q : Nat) (h : Frame) : Prop := ∃ g, s.frames[q]? = some (some g) ∧ g.Covers h

/-- What is covered by less is covered too. -/
theorem Reaches.mono (h₁ : s.Reaches q h) (hle : h.Covers f) : s.Reaches q f := by
  obtain ⟨g, hg, hgh⟩ := h₁
  exact ⟨g, hg, hgh.trans hle⟩

/-- What is covered stays covered. -/
theorem Reaches.extend (h₁ : s.Reaches q h) (hs : s.Extends s') : s'.Reaches q h := by
  obtain ⟨g, hg, hgh⟩ := h₁
  obtain ⟨g', hg', hle⟩ := hs.grows q g hg
  exact ⟨g', hg', hle.trans hgh⟩

/-- A frame that flows to a position is covered there from then on. -/
theorem flow_extends (hflow : s.flow l source (some p) f = .ok s') : s.Extends s' ∧ s'.Reaches p f := by
  obtain ⟨known, g, changed, hknown, hjoins, rfl⟩ := flow_ok hflow
  have hlt : p < s.frames.size := (Array.getElem?_eq_some_iff.mp hknown).1
  have hset : (s.frames.setIfInBounds p (some g))[p]? = some (some g) := by simp [hlt]
  have hother : ∀ q, q ≠ p → (s.frames.setIfInBounds p (some g))[q]? = s.frames[q]? := by
    intro q hq
    rw [Array.getElem?_setIfInBounds, if_neg (Ne.symm hq)]
  have hqueue : ∀ q ∈ s.queue, q ∈ (if changed then (s.enqueue p).queue else s.queue) := by
    intro q hq
    split
    · exact mem_queue_enqueue.mpr (.inr hq)
    · exact hq
  cases hjoins with
  | fresh =>
    refine ⟨⟨by simp, hqueue, ?_, ?_⟩, f, hset, .refl f⟩
    · intro q g hg
      have hq : q ≠ p := by
        rintro rfl
        rw [hknown] at hg
        cases hg
      exact ⟨g, (hother q hq).trans hg, .refl g⟩
    · intro q g hg hq
      have hne : q ≠ p := by
        rintro rfl
        exact hq (mem_queue_enqueue.mpr (.inl rfl))
      exact ⟨g, (hother q hne).symm.trans hg, .refl g⟩
  | @meets known _ _ hmerge =>
    obtain ⟨hcovers, hcovers', hkept⟩ := Frame.merge_covers hmerge
    refine ⟨⟨by simp, hqueue, ?_, ?_⟩, g, hset, hcovers'⟩
    · intro q f' hf'
      by_cases hq : q = p
      · subst hq
        obtain rfl : known = f' := by simpa [hknown] using hf'
        exact ⟨g, hset, hcovers⟩
      · exact ⟨f', (hother q hq).trans hf', .refl f'⟩
    · intro q g' hg' hq
      by_cases hqp : q = p
      · subst hqp
        obtain rfl : g = g' := by simpa [hset] using hg'
        cases changed with
        | false => exact ⟨known, hknown, hkept rfl⟩
        | true => exact absurd (mem_queue_enqueue.mpr (.inl rfl)) hq
      · exact ⟨g', (hother q hqp).symm.trans hg', .refl g'⟩

/-! ## Visits -/

/-- The locals that are known before a position. -/
def localsAt (s : FlowState) (p : Nat) : List (Option Value) := (s.frames[p]?.join.map Frame.locals).getD []

/-- The locals are those of the frame there. -/
theorem localsAt_eq (hf : s.frames[p]? = some (some f)) : s.localsAt p = f.locals := by
  rw [localsAt, hf]
  rfl

/-- Frames flow from the instruction at a position along its edges, one after the other. The locals before the
instruction are those known by then. -/
inductive Sends (l : Layout) (p : Nat) (source : InsnId) (x : Insn) (after : Frame) : FlowState → FlowState → Prop
  | refl (s : FlowState) : Sends l p source x after s s
  | step {s s' s'' : FlowState} {q : Nat} {h : Frame} (hsends : Sends l p source x after s s')
      (hflows : l.Flows p x (s'.localsAt p) after q h) (hflow : s'.flow l source (some q) h = .ok s'') :
      Sends l p source x after s s''

section

variable {x : Insn} {after : Frame}

/-- Frames can be sent in two turns. -/
theorem Sends.trans (h₁ : Sends l p source x after s s') (h₂ : Sends l p source x after s' s'') :
    Sends l p source x after s s'' := by
  induction h₂ with
  | refl => exact h₁
  | step _ hflows hflow ih => exact .step ih hflows hflow

/-- Sending frames extends the state. -/
theorem Sends.extends (hsends : Sends l p source x after s s') : s.Extends s' := by
  induction hsends with
  | refl => exact .refl _
  | step _ _ hflow ih => exact ih.trans (flow_extends hflow).1

/-- Only to positions can frames flow. -/
theorem position_of_flow {target : Option Nat} (hflow : s.flow l source target f = .ok s') :
    ∃ q, target = some q := by
  cases target with
  | none => cases hflow
  | some q => exact ⟨q, rfl⟩

/-- Frames are sent to all the targets of a branch. -/
theorem sends_targets {targets : List InsnId} (hsub : ∀ t ∈ targets, t ∈ x.targets)
    (hfold : targets.foldlM (fun s t => s.flow l source (l.position? t) after) s = .ok s') :
    Sends l p source x after s s' ∧ ∀ t ∈ targets, ∃ q, l.position? t = some q ∧ s'.Reaches q after := by
  induction targets generalizing s with
  | nil =>
    obtain rfl := Except.ok.inj hfold
    exact ⟨.refl s, by simp⟩
  | cons t targets ih =>
    rw [List.foldlM_cons] at hfold
    obtain ⟨s₁, hflow, hfold⟩ := except_bind_ok.mp hfold
    obtain ⟨q, hq⟩ := position_of_flow hflow
    rw [hq] at hflow
    obtain ⟨hrest, hreach⟩ := ih (fun t' ht' => hsub t' (by simp [ht'])) hfold
    refine ⟨(Sends.refl s).step (.branch (hsub t (by simp)) hq) hflow |>.trans hrest, ?_⟩
    exact List.forall_mem_cons.mpr ⟨⟨q, hq, (flow_extends hflow).2.extend hrest.extends⟩, hreach⟩

/-- A frame is sent to the next line, if control can fall through to it. -/
theorem sends_next {id : InsnId} (hnext : s.flowNext l p id x after = .ok s') :
    Sends l p id x after s s' ∧ (x.opcode.falls = true → s'.Reaches (p + 1) after) := by
  rw [flowNext] at hnext
  split at hnext
  · next hfalls =>
    split at hnext
    · cases hnext
    · exact ⟨(Sends.refl s).step (.next hfalls) hnext, fun _ => (flow_extends hnext).2⟩
  · next hfalls =>
    obtain rfl := Except.ok.inj hnext
    exact ⟨.refl s, fun h => absurd h hfalls⟩

/-- What flows to a handler is its entry frame. -/
theorem flowHandler_ok {e : Handler} {locals : List (Option Value)} (h : s.flowHandler l source e locals = .ok s') :
    ∃ q, l.position? e.handler = some q ∧ s.flow l source (some q) (e.entry locals) = .ok s' := by
  rw [flowHandler] at h
  split at h
  · cases h
  · next k hk =>
    obtain ⟨q, hq⟩ := position_of_flow h
    refine ⟨q, hq, ?_⟩
    rw [← hq]
    have hentry : e.entry locals = ⟨[.produced (if e.type.isEmpty then .throwable else .object e.type) k], locals⟩ := by
      rw [Handler.entry, hk]
      rfl
    rw [hentry]
    exact h

/-- The handlers around a position get the locals before it and those after it. -/
theorem sends_handlers {handlers : List Handler} (hsub : ∀ e ∈ handlers, e ∈ l.method.handlers)
    (hf : s.frames[p]? = some (some f)) (h : flowHandlers l p source after handlers s = .ok s') :
    Sends l p source x after s s' ∧ ∀ e ∈ handlers, covers l e p = true → ∃ q, l.position? e.handler = some q ∧
      s'.Reaches q (e.entry f.locals) ∧ s'.Reaches q (e.entry after.locals) := by
  induction handlers generalizing s f with
  | nil =>
    obtain rfl := Except.ok.inj h
    exact ⟨.refl s, by simp⟩
  | cons e handlers ih =>
    have hsub' : ∀ e' ∈ handlers, e' ∈ l.method.handlers := fun e' he' => hsub e' (by simp [he'])
    rw [flowHandlers] at h
    split at h
    · next hcovers =>
      obtain ⟨s₁, h₁, h⟩ := except_bind_ok.mp h
      obtain ⟨s₂, h₂, h⟩ := except_bind_ok.mp h
      obtain ⟨q, hq, hflow₁⟩ := flowHandler_ok h₁
      obtain ⟨q', hq', hflow₂⟩ := flowHandler_ok h₂
      obtain rfl := Option.some.inj (hq.symm.trans hq')
      have hmem := hsub e (by simp)
      have hsends : Sends l p source x after s s₂ :=
        ((Sends.refl s).step (.raise hmem hcovers hq (.inl rfl)) hflow₁).step
          (.raise hmem hcovers hq (.inr rfl)) hflow₂
      obtain ⟨g, hg, hgf⟩ := hsends.extends.grows p f hf
      obtain ⟨hrest, hreach⟩ := ih hsub' hg h
      refine ⟨hsends.trans hrest, ?_⟩
      intro e' he' hcovers'
      rcases List.mem_cons.mp he' with rfl | he'
      · have hbefore := (flow_extends hflow₁).2.extend (flow_extends hflow₂).1
        rw [show (Option.map Frame.locals (s.frames[p]?.join)).getD [] = f.locals from localsAt_eq hf] at hbefore
        exact ⟨q, hq, hbefore.extend hrest.extends, (flow_extends hflow₂).2.extend hrest.extends⟩
      · obtain ⟨r, hr, hbefore, hafter⟩ := hreach e' he' hcovers'
        exact ⟨r, hr, hbefore.mono (Handler.entry_covers e' hgf.locals).covers, hafter⟩
    · next hcovers =>
      obtain ⟨hsends, hreach⟩ := ih hsub' hf h
      refine ⟨hsends, ?_⟩
      intro e' he' hcovers'
      rcases List.mem_cons.mp he' with rfl | he'
      · exact absurd hcovers' hcovers
      · exact hreach e' he' hcovers'

end

/-- Everything that can follow a position with the frame `f` is in the code, and covered by what is known there. -/
def Settled (l : Layout) (s : FlowState) (p : Nat) (f : Frame) : Prop :=
  ∃ id x r, l.lines[p]? = some (id, x) ∧ CoordSplit.step id.toNat x f = .ok r ∧ l.Placed p x ∧
    ∀ q h, l.Flows p x f.locals r.frame q h → s.Reaches q h

/-- What is settled stays settled. -/
theorem Settled.extend (h : s.Settled l p f) (hs : s.Extends s') : s'.Settled l p f := by
  obtain ⟨id, x, r, hline, hstep, hplaced, hreach⟩ := h
  exact ⟨id, x, r, hline, hstep, hplaced, fun q h hflows => (hreach q h hflows).extend hs⟩

/-- A visit executes the instruction on the frame before it and sends frames along all its edges. -/
theorem visit_ok (hvisit : s.visit l p = .ok s') :
    ∃ id x f r, l.lines[p]? = some (id, x) ∧ s.frames[p]? = some (some f) ∧ CoordSplit.step id.toNat x f = .ok r ∧
      Sends l p id x r.frame s s' ∧ s'.Settled l p f := by
  cases hline : l.lines[p]? with
  | none => simp [visit, hline] at hvisit
  | some line =>
    obtain ⟨id, x⟩ := line
    cases hknown : s.frames[p]? with
    | none => simp [visit, hline, hknown] at hvisit
    | some known =>
      cases known with
      | none => simp [visit, hline, hknown] at hvisit
      | some f =>
        rw [visit_eq hline hknown] at hvisit
        obtain ⟨r, hr, hvisit⟩ := except_bind_ok.mp hvisit
        obtain ⟨s₁, h₁, hvisit⟩ := except_bind_ok.mp hvisit
        obtain ⟨s₂, h₂, h₃⟩ := except_bind_ok.mp hvisit
        have hstep := Outcome.mapError_ok.mp hr
        obtain ⟨hsends₁, htargets⟩ := sends_targets (p := p) (fun t ht => ht) h₁
        obtain ⟨hsends₂, hnext⟩ := sends_next h₂
        obtain ⟨f', hf', hf'f⟩ := (hsends₁.trans hsends₂).extends.grows p f hknown
        obtain ⟨hsends₃, hhandlers⟩ := sends_handlers (x := x) (fun e he => he) hf' h₃
        have hplaced : l.Placed p x := by
          refine ⟨fun t ht => ?_, fun e he hcovers => ?_⟩
          · obtain ⟨q, hq, -⟩ := htargets t ht
            exact ⟨q, hq⟩
          · obtain ⟨q, hq, -⟩ := hhandlers e he hcovers
            exact ⟨q, hq⟩
        refine ⟨id, x, f, r, rfl, rfl, hstep, (hsends₁.trans hsends₂).trans hsends₃, id, x, r, hline, hstep, hplaced, ?_⟩
        intro q h hflows
        cases hflows with
        | branch ht hq =>
          obtain ⟨q', hq', hreach⟩ := htargets _ ht
          obtain rfl := Option.some.inj (hq.symm.trans hq')
          exact hreach.extend (hsends₂.trans hsends₃).extends
        | next hfalls => exact (hnext hfalls).extend hsends₃.extends
        | raise hh hcovers hq hlocals =>
          obtain ⟨q', hq', hbefore, hafter⟩ := hhandlers _ hh hcovers
          obtain rfl := Option.some.inj (hq.symm.trans hq')
          rcases hlocals with rfl | rfl
          · exact hbefore.mono (Handler.entry_covers _ hf'f.locals).covers
          · exact hafter

/-! ## Explorations -/

/-- Queued positions are visited, in whatever order. -/
inductive Explores (l : Layout) : FlowState → FlowState → Prop
  | refl (s : FlowState) : Explores l s s
  | visit {s s' s'' : FlowState} {p : Nat} (hexplores : Explores l s s') (hp : p ∈ s'.queue)
      (hvisit : FlowState.visit l p { s' with queue := s'.queue.erase p } = .ok s'') : Explores l s s''

/-- The least position may be taken first. -/
theorem Explores.turn {rest : List Nat} (h : Explores l s s') (hqueue : s'.queue = p :: rest)
    (hvisit : FlowState.visit l p { s' with queue := rest } = .ok s'') : Explores l s s'' := by
  refine h.visit (p := p) (by simp [hqueue]) ?_
  rw [hqueue, List.erase_cons_head]
  exact hvisit

/-- What is covered stays covered in an exploration. -/
theorem Reaches.explores (h : s.Reaches q f) (hexplores : Explores l s s') : s'.Reaches q f := by
  induction hexplores with
  | refl => exact h
  | @visit s₁ s₂ p _ _ hvisit ih =>
    obtain ⟨_, _, _, _, -, -, -, hsends, -⟩ := visit_ok hvisit
    have hpopped : Reaches { s₁ with queue := s₁.queue.erase p } q f := ih
    exact hpopped.extend hsends.extends

/-- Every position that is not queued has all its edges accounted for. -/
def Accounted (l : Layout) (s : FlowState) : Prop :=
  ∀ (p : Nat) (f : Frame), s.frames[p]? = some (some f) → p ∉ s.queue → ∃ g, g.CoversEvenly f ∧ s.Settled l p g

/-- A visit accounts for the edges of its position. -/
theorem Accounted.visit (hs : s.Accounted l)
    (hvisit : FlowState.visit l p { s with queue := s.queue.erase p } = .ok s') : s'.Accounted l := by
  obtain ⟨id, x, f, r, hline, hf, hstep, hsends, hsettled⟩ := visit_ok hvisit
  intro q g hg hq
  obtain ⟨f', hf', hle⟩ := hsends.extends.kept q g hg hq
  by_cases hqp : q = p
  · subst hqp
    obtain rfl := Option.some.inj (Option.some.inj (hf.symm.trans hf'))
    exact ⟨f, hle, hsettled⟩
  · have hunqueued : q ∉ s.queue := fun hmem =>
      hq (hsends.extends.queued q ((List.mem_erase_of_ne hqp).mpr hmem))
    obtain ⟨g₀, hcovers, hsettled₀⟩ := hs q f' hf' hunqueued
    have hpopped : Settled l { s with queue := s.queue.erase p } q g₀ := hsettled₀
    exact ⟨g₀, hcovers.trans hle, hpopped.extend hsends.extends⟩

/-- All edges stay accounted for in an exploration. -/
theorem Accounted.explores (hs : s.Accounted l) (h : Explores l s s') : s'.Accounted l := by
  induction h with
  | refl => exact hs
  | visit _ _ hvisit ih => exact ih.visit hvisit

end FlowState

end CoordSplit
