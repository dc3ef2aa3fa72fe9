import CoordSplit.Proofs.FlowSoundness
import CoordSplit.Proofs.StackDepths
import CoordSplit.Proofs.StackEffects

/-!
# Stack depths and frames

The depth of a method's stack is computed from the stack effects of its instructions, and its frames by executing
them. Where every stack holds values only, both come to the same positions with the same depths, and the depth of the
method is that of the deepest stack of a frame (`Analysis.stackDepth_eq_depth`).

The depths of the frames fit the instructions (`Analysis.depthsFit`), so a depth is computed, and from no more
positions than the frames have. It is computed from no fewer either: the frames of the positions that it comes to are
closed under the instructions, and the frames of the analysis are the least ones that are.
-/

set_option autoImplicit false

namespace CoordSplit

/-- The frames before and after the reachable instructions. -/
def Analysis.frames (a : Analysis) : List Frame := (a.before.toList ++ a.after.toList).filterMap id

/-- The words that the deepest stack of a frame takes. -/
def Analysis.depth (a : Analysis) : Nat := (a.frames.map Frame.words).max?.getD 0

theorem Frame.CoversEvenly.words_eq {f g : Frame} (h : g.CoversEvenly f) : g.words = f.words := by
  have hsizes : f.stack.map Value.size = g.stack.map Value.size := by
    have hstack := h.stack
    generalize f.stack = vs, g.stack = ws at hstack
    induction hstack with
    | nil => rfl
    | cons hab _ ih => rw [List.map_cons, List.map_cons, hab.size, ih]
  rw [words, words, hsizes]

variable {m : Method} {p : Nat} {d : Nat → Option Int}

/-- What is in the code is found at the same position in both ways. -/
theorem StackDepth.position?_of_layout (hcode : m.code.WellLinked) {id : InsnId}
    (h : (Layout.ofMethod m).position? id = some p) : position? m.code m.code.index id = some p := by
  have hlive : m.code.isLive id = true := by
    rw [Code.Holds.isLive_iff hcode]
    exact List.mem_of_getElem? ((Layout.position?_eq_some_iff hcode id p).mp h)
  rw [position?, if_pos hlive]
  cases id with
  | ofNat k => exact h
  | negSucc k => cases h

/-! ## Frames where there are depths -/

/-- The frames of the positions that have a depth. -/
def Frames.restrict (F : Frames) (d : Nat → Option Int) : Frames := fun p => if (d p).isSome then F p else none

theorem Frames.restrict_of_depth (F : Frames) {k : Int} (h : d p = some k) : F.restrict d p = F p := by
  rw [restrict, h, Option.isSome_some, if_pos rfl]

theorem Frames.exists_of_restrict {F : Frames} {f : Frame}
    (h : F.restrict d p = some f) : ∃ k, d p = some k ∧ F p = some f := by
  unfold restrict at h
  split at h
  · next hsome =>
    obtain ⟨k, hk⟩ := Option.isSome_iff_exists.mp hsome
    exact ⟨k, hk, h⟩
  · cases h

/-- Where depths fit, control comes from a position that has one to positions that have one. -/
theorem Method.DepthsFit.exists_of_flows (hd : m.DepthsFit d)
    (hcode : m.code.WellLinked) {q : Nat} {k : Int} (hk : d p = some k) {id : InsnId} {x : Insn}
    (hline : m.code.listing[p]? = some (id, x)) {before : List (Option Value)} {after g : Frame}
    (hflows : (Layout.ofMethod m).Flows p x before after q g) : ∃ j, d q = some j := by
  obtain ⟨e, -, -, htargets, hfalls⟩ := hd.follows p k hk id x (by simpa using hline)
  cases hflows with
  | branch ht hq =>
    obtain ⟨q', hq', hj⟩ := htargets _ ht
    obtain rfl := Option.some.inj ((StackDepth.position?_of_layout hcode hq).symm.trans hq')
    exact ⟨_, hj⟩
  | next hf => exact ⟨_, hfalls hf⟩
  | raise hh _ hq _ =>
    obtain ⟨q', hq', hj⟩ := hd.handlers _ hh
    obtain rfl := Option.some.inj ((StackDepth.position?_of_layout hcode hq).symm.trans hq')
    exact ⟨_, hj⟩

/-- Where depths fit, the frames of the positions that have one are closed if all frames are. -/
theorem Method.Closed.restrict {owner : Text} {F : Frames} (hF : m.Closed owner F)
    (hcode : m.code.WellLinked) (hd : m.DepthsFit d) : m.Closed owner (F.restrict d) := by
  refine ⟨?_, ?_⟩
  · intro params hparams hlisting
    rw [F.restrict_of_depth (hd.entry (by simpa using hlisting))]
    exact hF.entry params hparams hlisting
  · intro p id x f hline hf
    obtain ⟨k, hk, hf⟩ := Frames.exists_of_restrict hf
    obtain ⟨r, hr, hflows⟩ := hF.step p id x f hline hf
    refine ⟨r, hr, ?_⟩
    intro q g hflow
    obtain ⟨j, hj⟩ := hd.exists_of_flows hcode hk hline hflow
    rw [F.restrict_of_depth hj]
    exact hflows q g hflow

namespace Analysis

open StackDepth

variable {owner : Text} {m : Method} {a : Analysis}

variable {f : Frame}

/-- A reachable position has an instruction, and everything that can follow it is in the code. -/
theorem exists_placed (h : ofMethod owner m = .ok a) {p : Nat} (hf : a.known p = some f) :
    ∃ id x, m.code.listing[p]? = some (id, x) ∧ (Layout.ofMethod m).Placed p x := by
  obtain ⟨s, hs, hknown⟩ := explored h (listing_ne_nil h (Option.join_eq_some_iff.mp hf))
  rw [hknown] at hf
  obtain ⟨g, -, id, x, r, hline, -, hplaced, -⟩ :=
    hs.accounted p f (FlowState.known_eq_some.mp hf) (by simp [hs.queue])
  exact ⟨id, x, by simpa [Layout.ofMethod] using hline, hplaced⟩

theorem mem_frames_of_known {p : Nat} (hf : a.known p = some f) : f ∈ a.frames := by
  have hbefore : a.before[p]? = some (some f) := Option.join_eq_some_iff.mp hf
  refine List.mem_filterMap.mpr ⟨some f, List.mem_append_left _ (List.mem_of_getElem? (i := p) ?_), rfl⟩
  simpa using hbefore

/-- The frames are those that are known before the instructions, and those that executing the instructions on them
leads to. -/
theorem mem_frames_iff (h : ofMethod owner m = .ok a) (g : Frame) :
    g ∈ a.frames ↔ ∃ p id x f r, m.code.listing[p]? = some (id, x) ∧ a.known p = some f ∧
      step id.toNat x f = .ok r ∧ (g = f ∨ g = r.frame) := by
  constructor
  · intro hg
    obtain ⟨_, hmem, rfl⟩ := List.mem_filterMap.mp hg
    rcases List.mem_append.mp hmem with hmem | hmem
    · obtain ⟨p, hp⟩ := List.getElem?_of_mem hmem
      have hg : a.known p = some g := Option.join_eq_some_iff.mpr (by simpa using hp)
      obtain ⟨id, x, hline, -⟩ := exists_placed h hg
      obtain ⟨r, hr⟩ := step_of_known h hline hg
      exact ⟨p, id, x, g, r, hline, hg, hr, .inl rfl⟩
    · obtain ⟨hlayout, -, rs, hrs, hafter, -⟩ := ofMethod_ok h
      rw [hafter] at hmem
      obtain ⟨⟨id, result⟩, hresult, hframe⟩ := List.mem_map.mp hmem
      obtain ⟨r, rfl, rfl⟩ := Option.map_eq_some_iff.mp hframe
      obtain ⟨x, f, hframed, hstep⟩ := (mem_results_iff hrs id r).mp hresult
      obtain ⟨p, hp⟩ := List.getElem?_of_mem hframed
      obtain ⟨hline, hf⟩ := List.getElem?_zip_eq_some.mp hp
      refine ⟨p, id, x, f, r, ?_, Option.join_eq_some_iff.mpr (by simpa using hf), hstep, .inr rfl⟩
      simpa [hlayout, Layout.ofMethod] using hline
  · rintro ⟨p, id, x, f, r, hline, hf, hstep, rfl | rfl⟩
    · exact mem_frames_of_known hf
    · obtain ⟨-, -, rs, hrs, hafter, -⟩ := ofMethod_ok h
      refine List.mem_filterMap.mpr ⟨some r.frame, List.mem_append_right _ ?_, rfl⟩
      rw [hafter]
      have hmem := (mem_results_iff hrs id r).mpr ⟨x, f, mem_framed_of_known h hline hf, hstep⟩
      exact List.mem_map.mpr ⟨_, hmem, rfl⟩

/-- The depth is the greatest number of words of a frame, and none if there are no frames. -/
theorem isGreatest_depth (a : Analysis) :
    IsGreatest (insert 0 {j : Int | ∃ f ∈ a.frames, j = f.words}) (a.depth : Int) := by
  unfold depth
  cases hmax : (a.frames.map Frame.words).max? with
  | none =>
    have hnil : a.frames = [] := by simpa using hmax
    simp [hnil]
  | some n =>
    obtain ⟨hmem, hle⟩ := List.max?_eq_some_iff.mp hmax
    obtain ⟨f, hf, rfl⟩ := List.mem_map.mp hmem
    refine ⟨.inr ⟨f, hf, rfl⟩, ?_⟩
    rintro j (rfl | ⟨g, hg, rfl⟩)
    · exact Int.natCast_nonneg _
    · exact Int.ofNat_le.mpr (hle _ (List.mem_map_of_mem hg))

/-! ## Depths of frames -/

/-- The depths of the stacks that are known before the instructions. -/
def depths (a : Analysis) (p : Nat) : Option Int := (a.known p).map fun f => (f.words : Int)

theorem depths_of_coversEvenly {q : Nat} {g : Frame} (hg : a.known q = some g) (hcovers : g.CoversEvenly f) :
    a.depths q = some (f.words : Int) := by
  rw [depths, hg, Option.map_some, hcovers.words_eq]

section Agreement

variable (h : ofMethod owner m = .ok a) (hcode : m.code.WellLinked)
  (hvalues : ∀ f ∈ a.frames, ∀ v ∈ f.stack, v.type ≠ .top ∧ v.type ≠ .void)
  (harrays : ∀ line ∈ m.code.listing, line.2.isArrayTyped = true)

include hvalues

theorem usable : a.known.Usable := fun _ f hf v hv => (hvalues f (mem_frames_of_known hf) v hv).1

include harrays

/-- A reachable instruction has a stack effect, and changes the depth by it. -/
theorem effect_of_known {p : Nat} {id : InsnId} {x : Insn} {f : Frame} {r : StepResult}
    (hline : m.code.listing[p]? = some (id, x)) (hf : a.known p = some f) (hr : step id.toNat x f = .ok r) :
    ∃ e, x.effect = .ok e ∧ e.pop ≤ f.words ∧ (r.frame.words : Int) = StackDepth.after e f.words := by
  obtain ⟨act, hact, heffect⟩ := Action.of_step hr
  obtain ⟨e, he, hnonneg, hpop, hwords⟩ :=
    heffect.words_eq fun v hv => ValueType.size_pos (hvalues f (mem_frames_of_known hf) v hv).2
  exact ⟨e, Insn.effect_of_action? (harrays _ (List.mem_of_getElem? hline)) hact he, hpop,
    hwords.trans (StackDepth.after_of_nonneg hnonneg _).symm⟩

include h

/-- The depths that occur are those of the frames. -/
theorem occurs_iff (j : Int) :
    Occurs m.code.listing.toArray (fun p k => a.depths p = some k) j ↔ ∃ f ∈ a.frames, j = f.words := by
  constructor
  · rintro ⟨p, k, hk, hj⟩
    obtain ⟨f, hf, rfl⟩ := Option.map_eq_some_iff.mp hk
    obtain ⟨id, x, hline, -⟩ := exists_placed h hf
    obtain ⟨r, hr⟩ := step_of_known h hline hf
    obtain ⟨e, he, -, hwords⟩ := effect_of_known hvalues harrays hline hf hr
    rcases hj with rfl | hleaves
    · exact ⟨f, mem_frames_of_known hf, rfl⟩
    · refine ⟨r.frame, (mem_frames_iff h _).mpr ⟨p, id, x, f, r, hline, hf, hr, .inr rfl⟩, ?_⟩
      exact hleaves.unique ⟨id, x, e, by simpa using hline, he, hwords⟩
  · rintro ⟨g, hg, rfl⟩
    obtain ⟨p, id, x, f, r, hline, hf, hr, hframe⟩ := (mem_frames_iff h g).mp hg
    have hk : a.depths p = some (f.words : Int) := by rw [depths, hf, Option.map_some]
    refine ⟨p, f.words, hk, ?_⟩
    rcases hframe with rfl | rfl
    · exact .inl rfl
    · obtain ⟨e, he, -, hwords⟩ := effect_of_known hvalues harrays hline hf hr
      exact .inr ⟨id, x, e, by simpa using hline, he, hwords⟩

include hcode

/-- The depths of the frames fit the instructions, if all handlers are entered. -/
theorem depthsFit (hhandlers : ∀ e ∈ m.handlers, ∃ p f, a.known p = some f ∧
    FlowState.covers (.ofMethod m) e p = true) : m.DepthsFit a.depths := by
  have hclosed := closed_known h (usable hvalues)
  refine ⟨?_, ?_, ?_, ?_⟩
  · intro p k hk
    obtain ⟨f, hf, -⟩ := Option.map_eq_some_iff.mp hk
    obtain ⟨id, x, hline, -⟩ := exists_placed h hf
    simpa using (List.getElem?_eq_some_iff.mp hline).1
  · intro hne
    have hlisting : m.code.listing ≠ [] := by simpa using hne
    obtain ⟨params, hparams⟩ := (ofMethod_ok h).2.1 hlisting
    obtain ⟨g, hg, hcovers⟩ := hclosed.entry params hparams hlisting
    exact depths_of_coversEvenly hg hcovers
  · intro e he
    obtain ⟨p, f, hf, hcovers⟩ := hhandlers e he
    obtain ⟨id, x, hline, hplaced⟩ := exists_placed h hf
    obtain ⟨q, hq⟩ := hplaced.handlers e he hcovers
    obtain ⟨r, -, hflows⟩ := hclosed.step p id x f hline hf
    obtain ⟨g, hg, hentry⟩ := hflows q _ (.raise he hcovers hq (.inl rfl))
    refine ⟨q, position?_of_layout hcode hq, ?_⟩
    rw [depths_of_coversEvenly hg hentry]
    -- the exception takes one word
    unfold Frame.words Handler.entry
    split <;> rfl
  · intro p k hk id x hx
    obtain ⟨f, hf, rfl⟩ := Option.map_eq_some_iff.mp hk
    have hline : m.code.listing[p]? = some (id, x) := by simpa using hx
    obtain ⟨r, hr, hflows⟩ := hclosed.step p id x f hline hf
    obtain ⟨e, he, hpop, hwords⟩ := effect_of_known hvalues harrays hline hf hr
    refine ⟨e, he, hpop, ?_, ?_⟩ <;> rw [← hwords]
    · intro t ht
      obtain ⟨id', x', hline', hplaced⟩ := exists_placed h hf
      obtain ⟨rfl, rfl⟩ := Prod.mk.inj (Option.some.inj (hline.symm.trans hline'))
      obtain ⟨q, hq⟩ := hplaced.targets t ht
      obtain ⟨g, hg, hcovers⟩ := hflows q _ (.branch ht hq)
      exact ⟨q, position?_of_layout hcode hq, depths_of_coversEvenly hg hcovers⟩
    · intro hfalls
      obtain ⟨g, hg, hcovers⟩ := hflows (p + 1) _ (.next hfalls)
      exact depths_of_coversEvenly hg hcovers

omit harrays

/-- Depths that fit come to every reachable position. -/
theorem exists_depth_of_known {d : Nat → Option Int} (hd : m.DepthsFit d) {p : Nat} {f : Frame}
    (hf : a.known p = some f) : ∃ k, d p = some k := by
  have hclosed := (closed_known h (usable hvalues)).restrict hcode hd
  have hlisting := listing_ne_nil h (Option.join_eq_some_iff.mp hf)
  obtain ⟨s, hs, hknown⟩ := explored h hlisting
  rw [hknown] at hf hclosed
  -- the frames of the analysis are the least closed ones
  obtain ⟨g, hg, -⟩ := hs.coverEvenly hclosed.sustains (fun params hp => hclosed.entry params hp hlisting) p f hf
  obtain ⟨k, hk, -⟩ := Frames.exists_of_restrict hg
  exact ⟨k, hk⟩

end Agreement

/-- Where every stack holds values only, every new array of several dimensions has an array type and every handler
covers a reachable instruction, the depth computed from the stack effects is that of the deepest stack of a frame. -/
theorem stackDepth_eq_depth (h : ofMethod owner m = .ok a) (hcode : m.code.WellLinked)
    (hvalues : ∀ f ∈ a.frames, ∀ v ∈ f.stack, v.type ≠ .top ∧ v.type ≠ .void)
    (harrays : ∀ line ∈ m.code.listing, line.2.isArrayTyped = true)
    (hhandlers : ∀ e ∈ m.handlers, ∃ p f, a.known p = some f ∧ FlowState.covers (.ofMethod m) e p = true) :
    m.stackDepth = .ok (a.depth : Int) := by
  have hfit := depthsFit h hcode hvalues harrays hhandlers
  obtain ⟨n, hn⟩ := m.stackDepth_ok_iff.mpr ⟨_, hfit⟩
  obtain ⟨d, hd, hleast, hgreatest⟩ := Method.exists_of_stackDepth hn
  have hdepths : d = a.depths := by
    funext p
    cases hp : d p with
    | some k => exact (hleast _ hfit p k hp).symm
    | none =>
      cases hf : a.known p with
      | none => rw [depths, hf, Option.map_none]
      | some f =>
        obtain ⟨k, hk⟩ := exists_depth_of_known h hcode hvalues hd hf
        simp [hp] at hk
  have hoccurs : {j | Occurs m.code.listing.toArray (fun p k => d p = some k) j} =
      {j : Int | ∃ f ∈ a.frames, j = f.words} := by
    ext j
    rw [hdepths]
    exact occurs_iff h hvalues harrays j
  rw [hoccurs] at hgreatest
  rw [hn, hgreatest.unique a.isGreatest_depth]

/-- A method that goes round a loop in the range of a handler, with a wide value on the stack, and then makes an array
of two dimensions. -/
def guarded : Method :=
  ⟨"m", "(I)V", ⟨8⟩, .ofList [.label, .var .iload 0, .plain .lconst1, .plain .pop2, .jump .ifeq 0, .label,
    .plain .iconst2, .plain .iconst3, .multiArray "[[I" 2, .var .astore 1, .plain .returnVoid, .label, .plain .pop,
    .plain .returnVoid], [], [⟨"", 0, 5, 11⟩], 3, 2⟩

theorem guarded_analysis : ∃ a, ofMethod "C" guarded = .ok a ∧ a.depth = 3 ∧
    (∀ f ∈ a.frames, ∀ v ∈ f.stack, v.type ≠ .top ∧ v.type ≠ .void) ∧ ∃ f, a.known 1 = some f := by
  have h : ((ofMethod "C" guarded).toOption.map fun a => (a.depth,
      a.frames.all fun f => f.stack.all fun v => v.type ≠ .top ∧ v.type ≠ .void, (a.known 1).isSome)) =
        some (3, true, true) := by decide +kernel
  obtain ⟨a, ha, h⟩ := except_ok_of_map h
  simp only [Prod.mk.injEq, List.all_eq_true, decide_eq_true_eq] at h
  exact ⟨a, ha, h.1, h.2.1, Option.isSome_iff_exists.mp h.2.2⟩

/-- Three words are on the stack in the loop, and nowhere more. -/
theorem stackDepth_eq_depth_guarded : ∃ a, ofMethod "C" guarded = .ok a ∧ guarded.code.WellLinked ∧
    (∀ f ∈ a.frames, ∀ v ∈ f.stack, v.type ≠ .top ∧ v.type ≠ .void) ∧
    (∀ line ∈ guarded.code.listing, line.2.isArrayTyped = true) ∧
    (∀ e ∈ guarded.handlers, ∃ p f, a.known p = some f ∧ FlowState.covers (.ofMethod guarded) e p = true) ∧
    guarded.stackDepth = .ok (a.depth : Int) ∧ a.depth = 3 := by
  obtain ⟨a, ha, hdepth, hvalues, f, hf⟩ := guarded_analysis
  have hcode : guarded.code.WellLinked := (Code.holds_ofList _).wellLinked
  have harrays : ∀ line ∈ guarded.code.listing, line.2.isArrayTyped = true := by decide +kernel
  have hcovers : FlowState.covers (.ofMethod guarded) ⟨"", 0, 5, 11⟩ 1 = true := by decide +kernel
  have hhandlers : ∀ e ∈ guarded.handlers, ∃ p f, a.known p = some f ∧
      FlowState.covers (.ofMethod guarded) e p = true := by
    intro e he
    obtain rfl := List.mem_singleton.mp he
    exact ⟨1, f, hf, hcovers⟩
  exact ⟨a, ha, hcode, hvalues, harrays, hhandlers, stackDepth_eq_depth ha hcode hvalues harrays hhandlers, hdepth⟩

end Analysis

end CoordSplit
