import CoordSplit.Proofs.FlowBound

/-!
# What the frames of an analysis mean

The frames that an analysis ends with hold on every path: whatever way control takes from the start of the method,
the frame that executing the instructions one by one leads to is covered by the frame of the position
(`Analysis.covers_path`). And they say no more than that asks for: every family of frames that is closed under the
instructions covers them, and no order of visits could have led to others (`Analysis.least_closed`).

Both need what is on a stack to keep its width where paths meet. Values of different types that take two words meet
in a value that takes one, so the positions where such a value lies on the stack are excluded where it matters.
-/

set_option autoImplicit false

namespace CoordSplit

/-! ## Families of frames -/

/-- Frames by position. -/
abbrev Frames := Nat → Option Frame

/-- Wherever the second family has a frame, the first one has one that covers it, with the same widths. -/
def Frames.CoverEvenly (F G : Frames) : Prop := ∀ p f, G p = some f → ∃ g, F p = some g ∧ g.CoversEvenly f

/-- No stack holds a value of the type of unusable slots. -/
def Frames.Usable (F : Frames) : Prop := ∀ p f, F p = some f → ∀ v ∈ f.stack, v.type ≠ .top

/-- The frames known in a state. -/
def FlowState.known (s : FlowState) : Frames := fun p => (s.frames[p]?).join

theorem FlowState.known_eq_some {s : FlowState} {p : Nat} {f : Frame} :
    s.known p = some f ↔ s.frames[p]? = some (some f) := by
  rw [known, Option.join_eq_some_iff]

/-- The frames that an analysis ends with. -/
def Analysis.known (a : Analysis) : Frames := fun p => (a.before[p]?).join

/-- Wherever the family has a frame, an instruction comes from it, or from one that covers it, to frames that the
family covers. -/
def Layout.Sustains (l : Layout) (F : Frames) : Prop :=
  ∀ p id x f, l.lines[p]? = some (id, x) → F p = some f → ∃ g r, g.CoversEvenly f ∧ step id.toNat x g = .ok r ∧
    ∀ q h, l.Flows p x g.locals r.frame q h → ∃ g', F q = some g' ∧ g'.CoversEvenly h

namespace FlowState

variable {l : Layout} {F : Frames} {s s' : FlowState} {source : InsnId} {p : Nat}

/-- A frame that the family covers can arrive. -/
theorem coverEvenly_flow {f g : Frame} (hF : F.CoverEvenly s.known) (hg : F p = some g) (hgf : g.CoversEvenly f)
    (hflow : s.flow l source (some p) f = .ok s') : F.CoverEvenly s'.known := by
  obtain ⟨known, merged, changed, hknown, hjoins, rfl⟩ := flow_ok hflow
  intro q f' hf'
  rcases frame_of_set (known_eq_some.mp hf') with ⟨rfl, rfl⟩ | hq
  · refine ⟨g, hg, ?_⟩
    cases hjoins with
    | fresh => exact hgf
    | meets hmerge =>
      obtain ⟨g', hg', hcovers⟩ := hF p _ (known_eq_some.mpr hknown)
      obtain rfl := Option.some.inj (hg.symm.trans hg')
      exact hcovers.merge hgf hmerge
  · exact hF q f' (known_eq_some.mpr hq)

/-- What a visit comes to is covered by every family that is sustained and covers what was known before. -/
theorem coverEvenly_visit (hl : l.Sustains F) (hF : F.CoverEvenly s.known) (hvisit : s.visit l p = .ok s') :
    F.CoverEvenly s'.known := by
  obtain ⟨id, x, f, r, hline, hf, hstep, hsends, -⟩ := visit_ok hvisit
  obtain ⟨f₀, hf₀, hcovers⟩ := hF p f (known_eq_some.mpr hf)
  obtain ⟨g, r', hg, hstep', hflows'⟩ := hl p id x f₀ hline hf₀
  have hafter := step_mono (hg.trans hcovers) hstep hstep'
  clear hvisit
  induction hsends with
  | refl => exact hF
  | @step s' s'' q h hsends hflows hflow hF' =>
    obtain ⟨f', hf', -⟩ := hsends.extends.grows p f hf
    rw [localsAt_eq hf'] at hflows
    -- the locals before the instruction may have grown since the visit began
    obtain ⟨f₁, hf₁, hcovers'⟩ := hF' p f' (known_eq_some.mpr hf')
    obtain rfl := Option.some.inj (hf₀.symm.trans hf₁)
    obtain ⟨h', hflows'', hle⟩ := hflows.mono (hg.trans hcovers').locals hafter
    obtain ⟨g', hg', hcovers''⟩ := hflows' q h' hflows''
    exact coverEvenly_flow hF' hg' (hcovers''.trans hle) hflow

theorem coverEvenly_explores (hl : l.Sustains F) (hF : F.CoverEvenly s.known) (h : Explores l s s') :
    F.CoverEvenly s'.known := by
  induction h with
  | refl => exact hF
  | @visit s s' p _ _ hvisit ih =>
    have hpopped : F.CoverEvenly (known { s with queue := s.queue.erase p }) := ih
    exact coverEvenly_visit hl hpopped hvisit

/-- Once nothing is queued, what is known is sustained. -/
theorem sustains_known (hs : s.Accounted l) (hqueue : s.queue = []) (husable : s.known.Usable) :
    l.Sustains s.known := by
  intro p id x f hline hf
  obtain ⟨g, hg, id', x', r, hline', hstep, -, hreach⟩ := hs p f (known_eq_some.mp hf) (by simp [hqueue])
  obtain ⟨rfl, rfl⟩ := Prod.mk.inj (Option.some.inj (hline.symm.trans hline'))
  refine ⟨g, r, hg, hstep, ?_⟩
  intro q h hflows
  obtain ⟨g', hg', hcovers⟩ := hreach q h hflows
  exact ⟨g', known_eq_some.mpr hg', hcovers.evenly (husable q g' (known_eq_some.mpr hg'))⟩

/-- What is below usable stacks is usable. -/
theorem usable_of_coverEvenly {G : Frames} (h : F.CoverEvenly G) (hF : F.Usable) : G.Usable := by
  intro p f hf v hv htop
  obtain ⟨g, hg, hcovers⟩ := h p f hf
  obtain ⟨w, hw, hvw⟩ : ∃ w ∈ g.stack, v.BelowEvenly w := by
    have hstack := hcovers.stack
    generalize f.stack = vs, g.stack = ws at hstack hv
    induction hstack with
    | nil => cases hv
    | cons hab _ ih =>
      rcases List.mem_cons.mp hv with rfl | hv
      · exact ⟨_, by simp, hab⟩
      · obtain ⟨w, hw, hvw⟩ := ih hv
        exact ⟨w, by simp [hw], hvw⟩
  have hle := Value.type_le hvw.le
  rw [htop] at hle
  -- nothing but itself is above the type of unusable slots
  have : w.type = .top := by
    rcases ValueType.le_iff.mp hle with h | ⟨h, -⟩ | ⟨h, -⟩ | ⟨h, -⟩ | h
    · exact h.symm
    · cases h
    · cases h
    · cases h
    · exact h
  exact hF p g hg w hw this

theorem accounted_start (l : Layout) (f : Frame) : (start l f).Accounted l := by
  intro p g hg hp
  have hne : 0 ≠ p := fun h => hp (by simp [start, h])
  rw [start, Array.getElem?_setIfInBounds, if_neg hne, Array.getElem?_replicate] at hg
  split at hg <;> cases hg

theorem start_known {f : Frame} (hl : 0 < l.lines.size) {g : Frame}
    (h : (start l f).known p = some g) : p = 0 ∧ g = f := by
  rw [known_eq_some, start, Array.getElem?_setIfInBounds, Array.getElem?_replicate] at h
  split at h
  · next hp =>
    rw [if_pos (by simpa using hl)] at h
    exact ⟨hp.symm, (Option.some.inj (Option.some.inj h)).symm⟩
  · split at h <;> cases h

end FlowState

/-! ## Paths -/

/-- The control paths of a method declared by `owner`, executed step by step: the position that a path ends at, and
the frame there. -/
inductive Method.Path (owner : Text) (m : Method) : Nat → Frame → Prop
  | entry {params : List ValueType} (hparams : m.params owner = .ok params) (hcode : m.code.listing ≠ []) :
      Path owner m 0 (Analysis.entry params)
  | step {p q : Nat} {id : InsnId} {x : Insn} {f g : Frame} {r : StepResult} (hpath : Path owner m p f)
      (hline : m.code.listing[p]? = some (id, x)) (hstep : CoordSplit.step id.toNat x f = .ok r)
      (hflows : (Layout.ofMethod m).Flows p x f.locals r.frame q g) : Path owner m q g

/-- The positions of a method with code were visited, in whatever order, until none was queued. -/
structure Method.Explored (owner : Text) (m : Method) (s : FlowState) : Prop where
  code : m.code.listing ≠ []
  explores : ∃ params, m.params owner = .ok params ∧
    FlowState.Explores (.ofMethod m) (.start (.ofMethod m) (Analysis.entry params)) s
  queue : s.queue = []

namespace Method.Explored

variable {owner : Text} {m : Method} {s : FlowState}

variable (h : m.Explored owner s)

include h

theorem accounted : s.Accounted (.ofMethod m) := by
  obtain ⟨params, -, hexplores⟩ := h.explores
  exact (FlowState.accounted_start _ _).explores hexplores

theorem lines_pos : 0 < (Layout.ofMethod m).lines.size := by
  simpa [Layout.ofMethod] using List.length_pos_iff.mpr h.code

/-- The parameters stay covered. -/
theorem reaches_entry {params : List ValueType} (hparams : m.params owner = .ok params) :
    s.Reaches 0 (Analysis.entry params) := by
  obtain ⟨params', hparams', hexplores⟩ := h.explores
  obtain rfl := Except.ok.inj (hparams.symm.trans hparams')
  have hstart : (FlowState.start (.ofMethod m) (Analysis.entry params)).Reaches 0 (Analysis.entry params) :=
    ⟨_, by simp [FlowState.start, h.lines_pos], .refl _⟩
  exact hstart.explores hexplores

/-- What was found in one order of visits is covered by every sustained family that covers the parameters. -/
theorem coverEvenly {F : Frames} (hF : (Layout.ofMethod m).Sustains F)
    (hentry : ∀ params, m.params owner = .ok params → ∃ g, F 0 = some g ∧ g.CoversEvenly (Analysis.entry params)) :
    F.CoverEvenly s.known := by
  obtain ⟨params, hparams, hexplores⟩ := h.explores
  refine FlowState.coverEvenly_explores hF ?_ hexplores
  intro p f hf
  obtain ⟨rfl, rfl⟩ := FlowState.start_known h.lines_pos hf
  exact hentry params hparams

/-- What was found covers the parameters, with the same widths. -/
theorem covers_entry {params : List ValueType} (hparams : m.params owner = .ok params) :
    ∃ g, s.known 0 = some g ∧ g.CoversEvenly (Analysis.entry params) := by
  obtain ⟨g, hg, hcovers⟩ := h.reaches_entry hparams
  obtain ⟨hstack, hlocals⟩ := hcovers
  refine ⟨g, FlowState.known_eq_some.mpr hg, ?_, hlocals⟩
  have hempty : g.stack = [] := List.forall₂_nil_left_iff.mp hstack
  rw [hempty]
  exact .nil

/-- No order of visits comes to more than another one, if it comes to usable stacks. -/
theorem coverEvenly_of_usable {s' : FlowState} (h' : m.Explored owner s')
    (husable : s.known.Usable) : s.known.CoverEvenly s'.known :=
  h'.coverEvenly (FlowState.sustains_known h.accounted h.queue husable) fun _ hparams => h.covers_entry hparams

end Method.Explored

namespace Analysis

variable {owner : Text} {m : Method} {a : Analysis}

theorem explored (h : ofMethod owner m = .ok a) (hcode : m.code.listing ≠ []) :
    ∃ s, m.Explored owner s ∧ a.known = s.known := by
  obtain ⟨params, hparams⟩ := (ofMethod_ok h).2.1 hcode
  obtain ⟨s, hexplores, hqueue, hbefore⟩ := ofMethod_explores h hparams hcode
  exact ⟨s, ⟨hcode, ⟨params, hparams, hexplores⟩, hqueue⟩, funext fun p => by rw [Analysis.known, hbefore, FlowState.known]⟩

/-- Where there is a frame, there is code. -/
theorem listing_ne_nil (h : ofMethod owner m = .ok a) {p : Nat} {f : Frame} (hf : a.before[p]? = some (some f)) :
    m.code.listing ≠ [] := by
  intro hnil
  have hempty : a.before = #[] := by
    simp only [ofMethod, Layout.ofMethod, hnil] at h
    rw [if_pos (by rfl)] at h
    obtain rfl := Except.ok.inj h
    rfl
  simp [hempty] at hf

/-- Where no stack holds an unusable value, the frames of an analysis hold on every path: the frame that a path leads
to is covered by the frame of the position that it ends at. -/
theorem covers_path (h : ofMethod owner m = .ok a) (husable : a.known.Usable) {p : Nat} {f : Frame}
    (hpath : m.Path owner p f) : ∃ g, a.before[p]? = some (some g) ∧ g.Covers f := by
  have hcode : m.code.listing ≠ [] := by
    cases hpath with
    | entry _ hcode => exact hcode
    | step _ hline _ _ => exact List.ne_nil_of_mem (List.mem_of_getElem? hline)
  obtain ⟨s, hs, hknown⟩ := explored h hcode
  rw [hknown] at husable
  suffices hreach : ∃ g, s.known p = some g ∧ g.Covers f by
    obtain ⟨g, hg, hcovers⟩ := hreach
    exact ⟨g, Option.join_eq_some_iff.mp (by rw [← hg, ← hknown]; rfl), hcovers⟩
  have hsustains := FlowState.sustains_known hs.accounted hs.queue husable
  induction hpath with
  | entry hparams _ =>
    obtain ⟨g, hg, hcovers⟩ := hs.covers_entry hparams
    exact ⟨g, hg, hcovers.covers⟩
  | step _ hline hstep hflows ih =>
    obtain ⟨g, hg, hcovers⟩ := ih
    obtain ⟨g₀, r₀, hg₀, hstep₀, hflows₀⟩ := hsustains _ _ _ g (by simpa [Layout.ofMethod] using hline) hg
    have heven := hg₀.trans (hcovers.evenly (husable _ g hg))
    obtain ⟨h₀, hflows', hle⟩ := hflows.mono heven.locals (step_mono heven hstep hstep₀)
    obtain ⟨g', hg', hcovers'⟩ := hflows₀ _ h₀ hflows'
    exact ⟨g', hg', (hcovers'.trans hle).covers⟩

/-- A method in which two ways meet with a value on the stack, and then go round a loop. -/
def meeting : Method :=
  ⟨"m", "(I)V", ⟨8⟩, .ofList [.var .iload 0, .jump .ifeq 4, .plain .iconst1, .jump .goto 6, .label, .plain .iconst2,
    .label, .var .istore 1, .var .iload 1, .jump .goto 6], [], [], 1, 2⟩

/-- The frame with which the second way comes to the meeting point. -/
def meetingFrame : Frame :=
  ⟨[.produced .int 5], [some ⟨.int, .empty, .singleton 0⟩]⟩

theorem meeting_analysis : ∃ a, ofMethod "C" meeting = .ok a ∧ a.known.Usable := by
  have h : ((ofMethod "C" meeting).toOption.map fun a =>
      a.before.toList.all fun o => o.all fun f => f.stack.all fun v => v.type ≠ .top) = some true := by decide +kernel
  obtain ⟨a, ha, h⟩ := except_ok_of_map h
  refine ⟨a, ha, ?_⟩
  intro p f hf v hv
  have hmem : some f ∈ a.before.toList :=
    List.mem_of_getElem? (i := p) (by simpa using Option.join_eq_some_iff.mp hf)
  have := List.all_eq_true.mp h _ hmem
  simp only [Option.all_some, List.all_eq_true, decide_eq_true_eq] at this
  exact this v hv

theorem meeting_params : meeting.params "C" = .ok [.int] := by
  apply except_ok_of_toOption
  decide +kernel

theorem meeting_path : meeting.Path "C" 6 meetingFrame := by
  have hlisting : meeting.code.listing = Code.numbered 0 [.var .iload 0, .jump .ifeq 4, .plain .iconst1, .jump .goto 6,
    .label, .plain .iconst2, .label, .var .istore 1, .var .iload 1, .jump .goto 6] := by decide +kernel
  have hposition : (Layout.ofMethod meeting).position? 4 = some 4 := by decide +kernel
  have h₀ : meeting.Path "C" 0 (entry [.int]) := .entry meeting_params (by rw [hlisting]; decide)
  have h₁ := h₀.step (by rw [hlisting]; rfl) rfl (.next rfl)
  have h₄ := h₁.step (by rw [hlisting]; rfl) rfl (.branch (List.mem_singleton.mpr rfl) hposition)
  have h₅ := h₄.step (by rw [hlisting]; rfl) rfl (.next rfl)
  exact h₅.step (by rw [hlisting]; rfl) rfl (.next rfl)

/-- The second way is covered where the two meet, as the first one is. -/
theorem covers_path_meeting : ∃ a g, ofMethod "C" meeting = .ok a ∧ a.known.Usable ∧
    meeting.Path "C" 6 meetingFrame ∧ a.before[6]? = some (some g) ∧ g.Covers meetingFrame := by
  obtain ⟨a, ha, husable⟩ := meeting_analysis
  obtain ⟨g, hg, hcovers⟩ := covers_path ha husable meeting_path
  exact ⟨a, g, ha, husable, meeting_path, hg, hcovers⟩

end Analysis

/-! ## Least families -/

/-- The family covers the parameters, and wherever it has a frame the instruction can be executed on it and the family
covers whatever follows, with the same widths. -/
structure Method.Closed (owner : Text) (m : Method) (F : Frames) : Prop where
  entry : ∀ params, m.params owner = .ok params → m.code.listing ≠ [] →
    ∃ g, F 0 = some g ∧ g.CoversEvenly (Analysis.entry params)
  step : ∀ p id x f, m.code.listing[p]? = some (id, x) → F p = some f → ∃ r, CoordSplit.step id.toNat x f = .ok r ∧
    ∀ q h, (Layout.ofMethod m).Flows p x f.locals r.frame q h → ∃ g, F q = some g ∧ g.CoversEvenly h

theorem Method.Closed.sustains {owner : Text} {m : Method} {F : Frames} (h : m.Closed owner F) :
    (Layout.ofMethod m).Sustains F := by
  intro p id x f hline hf
  obtain ⟨r, hr, hflows⟩ := h.step p id x f (by simpa [Layout.ofMethod] using hline) hf
  exact ⟨f, r, .refl f, hr, hflows⟩

namespace Analysis

variable {owner : Text} {m : Method} {a : Analysis}

theorem mem_framed_of_known (h : ofMethod owner m = .ok a) {p : Nat} {line : InsnId × Insn} {f : Frame}
    (hline : m.code.listing[p]? = some line) (hf : a.known p = some f) : (line, some f) ∈ a.framed := by
  have hframe : a.before[p]? = some (some f) := Option.join_eq_some_iff.mp hf
  refine List.mem_of_getElem? (i := p) (List.getElem?_zip_eq_some.mpr ⟨?_, by simpa using hframe⟩)
  simpa [(ofMethod_ok h).1, Layout.ofMethod] using hline

theorem step_of_known (h : ofMethod owner m = .ok a) {p : Nat} {id : InsnId} {x : Insn} {f : Frame}
    (hline : m.code.listing[p]? = some (id, x)) (hf : a.known p = some f) : ∃ r, step id.toNat x f = .ok r := by
  obtain ⟨-, -, rs, hrs, -⟩ := ofMethod_ok h
  obtain ⟨r, hr, -⟩ := (results_ok hrs).1 _ (mem_framed_of_known h hline hf) f rfl
  exact ⟨r, hr⟩

/-- Usable frames are closed. -/
theorem closed_known (h : ofMethod owner m = .ok a) (husable : a.known.Usable) : m.Closed owner a.known := by
  refine ⟨?_, ?_⟩
  · intro params hparams hcode
    obtain ⟨s, hs, hknown⟩ := explored h hcode
    rw [hknown]
    exact hs.covers_entry hparams
  · intro p id x f hline hf
    obtain ⟨r, hr⟩ := step_of_known h hline hf
    refine ⟨r, hr, ?_⟩
    intro q h' hflows
    obtain ⟨s, hs, hknown⟩ := explored h (List.ne_nil_of_mem (List.mem_of_getElem? hline))
    rw [hknown] at husable hf ⊢
    obtain ⟨g, r₀, hg, hstep, hflows₀⟩ := FlowState.sustains_known hs.accounted hs.queue husable p id x f
      (by simpa [Layout.ofMethod] using hline) hf
    obtain ⟨h₀, hflows', hle⟩ := hflows.mono hg.locals (step_mono hg hr hstep)
    obtain ⟨g', hg', hcovers⟩ := hflows₀ q h₀ hflows'
    exact ⟨g', hg', hcovers.trans hle⟩

/-- The frames of an analysis are covered by every closed family. Where no stack holds an unusable value they are
closed themselves, so they are the least closed family, and visiting the positions in another order until none is
left comes to frames that cover each other with these. -/
theorem least_closed (h : ofMethod owner m = .ok a) :
    (∀ F, m.Closed owner F → F.CoverEvenly a.known) ∧
    (a.known.Usable → m.Closed owner a.known ∧
      ∀ s, m.Explored owner s → a.known.CoverEvenly s.known ∧ s.known.CoverEvenly a.known) := by
  refine ⟨?_, fun husable => ⟨closed_known h husable, ?_⟩⟩
  · intro F hF p f hf
    have hbefore : a.before[p]? = some (some f) := Option.join_eq_some_iff.mp hf
    have hcode := listing_ne_nil h hbefore
    obtain ⟨s, hs, hknown⟩ := explored h hcode
    rw [hknown] at hf
    exact hs.coverEvenly hF.sustains (fun params hparams => hF.entry params hparams hcode) p f hf
  · intro s hs
    obtain ⟨s₀, hs₀, hknown⟩ := explored h hs.code
    rw [hknown] at husable ⊢
    have hcover := hs₀.coverEvenly_of_usable hs husable
    exact ⟨hcover, hs.coverEvenly_of_usable hs₀ (FlowState.usable_of_coverEvenly hcover husable)⟩

/-- The frames of the method in which two ways meet are the least closed family. -/
theorem least_closed_meeting : ∃ a, ofMethod "C" meeting = .ok a ∧ meeting.Closed "C" a.known ∧
    ∀ F, meeting.Closed "C" F → F.CoverEvenly a.known := by
  obtain ⟨a, ha, husable⟩ := meeting_analysis
  obtain ⟨hleast, hclosed⟩ := least_closed ha
  exact ⟨a, ha, (hclosed husable).1, hleast⟩

end Analysis

end CoordSplit
