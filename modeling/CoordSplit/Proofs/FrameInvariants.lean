import CoordSplit.Proofs.FlowSoundness

/-!
# What holds of all frames

An analysis starts with the frame of the parameters. From there it executes instructions on frames, merges frames
where paths meet, and enters handlers with the locals of frames. What none of this breaks (`Method.Maintains`) holds of
the frame before and of the frame after every reachable instruction (`Method.Maintains.before`,
`Method.Maintains.after`).
-/

set_option autoImplicit false

namespace CoordSplit

/-- A property of frames that holds where a method declared by `owner` is entered, and that its analysis keeps. -/
structure Method.Maintains (owner : Text) (m : Method) (P : Frame → Prop) : Prop where
  entry : ∀ params, m.params owner = .ok params → P (Analysis.entry params)
  step : ∀ id x f r, (id, x) ∈ m.code.listing → P f → CoordSplit.step id.toNat x f = .ok r → P r.frame
  merge : ∀ f g merged changed, P f → P g → f.merge g = (merged, .ok changed) → P merged
  raise : ∀ e ∈ m.handlers, ∀ q f, (Layout.ofMethod m).position? e.handler = some q → P f → P (e.entry f.locals)

namespace FlowState

variable {owner : Text} {m : Method} {P : Frame → Prop} {s s' : FlowState} {source : InsnId} {p : Nat}

/-- The property holds of every frame that is known. -/
def All (P : Frame → Prop) (s : FlowState) : Prop := ∀ (p : Nat) (f : Frame), s.frames[p]? = some (some f) → P f

variable (hP : m.Maintains owner P)

include hP

theorem All.flow (hs : s.All P) {f : Frame} (hf : P f)
    (hflow : s.flow (.ofMethod m) source (some p) f = .ok s') : s'.All P := by
  obtain ⟨known, g, changed, hknown, hjoins, rfl⟩ := flow_ok hflow
  intro q g' hg'
  rcases frame_of_set hg' with ⟨rfl, rfl⟩ | hq
  · cases hjoins with
    | fresh => exact hf
    | meets hmerge => exact hP.merge _ _ _ _ (hs p _ hknown) hf hmerge
  · exact hs q g' hq

/-- What holds of all frames holds of those that are sent. -/
theorem All.sends (hs : s.All P) {x : Insn} {f after : Frame}
    (hf : s.frames[p]? = some (some f)) (hafter : P after) (hsends : Sends (.ofMethod m) p source x after s s') :
    s'.All P := by
  induction hsends with
  | refl => exact hs
  | @step s' s'' q h hsends hflows hflow ih =>
    refine ih.flow hP ?_ hflow
    cases hflows with
    | branch => exact hafter
    | next => exact hafter
    | raise hh _ hq hlocals =>
      rcases hlocals with rfl | rfl
      · -- the locals before the instruction are those of the frame that is known by now
        obtain ⟨g, hg, -⟩ := hsends.extends.grows p f hf
        rw [localsAt_eq hg]
        exact hP.raise _ hh _ g hq (ih p g hg)
      · exact hP.raise _ hh _ after hq hafter

theorem All.visit (hs : s.All P) (hvisit : s.visit (.ofMethod m) p = .ok s') : s'.All P := by
  obtain ⟨id, x, f, r, hline, hf, hstep, hsends, -⟩ := visit_ok hvisit
  have hmem : (id, x) ∈ m.code.listing := List.mem_of_getElem? (i := p) (by simpa [Layout.ofMethod] using hline)
  exact hs.sends hP hf (hP.step id x f r hmem (hs p f hf) hstep) hsends

theorem All.explores (hs : s.All P) (h : Explores (.ofMethod m) s s') : s'.All P := by
  induction h with
  | refl => exact hs
  | @visit s s' p _ _ hvisit ih =>
    have hpopped : All P { s with queue := s.queue.erase p } := ih
    exact hpopped.visit hP hvisit

end FlowState

namespace Method.Maintains

variable {owner : Text} {m : Method} {P : Frame → Prop} {a : Analysis} (hP : m.Maintains owner P)

include hP

/-- What an analysis keeps holds before every reachable instruction. -/
theorem before (h : Analysis.ofMethod owner m = .ok a) {p : Nat} {f : Frame}
    (hf : a.before[p]? = some (some f)) : P f := by
  obtain ⟨s, hs, hknown⟩ := Analysis.explored h (Analysis.listing_ne_nil h hf)
  obtain ⟨params, hparams, hexplores⟩ := hs.explores
  have hstart : (FlowState.start (.ofMethod m) (Analysis.entry params)).All P := by
    intro q g hg
    obtain ⟨-, rfl⟩ := FlowState.start_known hs.lines_pos (FlowState.known_eq_some.mpr hg)
    exact hP.entry params hparams
  have hframe : s.known p = some f := by
    rw [← hknown, Analysis.known, hf]
    rfl
  exact hstart.explores hP hexplores p f (FlowState.known_eq_some.mp hframe)

/-- What an analysis keeps holds after every reachable instruction. -/
theorem after (h : Analysis.ofMethod owner m = .ok a) {p : Nat} {f : Frame}
    (hf : a.after[p]? = some (some f)) : P f := by
  obtain ⟨-, -, rs, hrs, hafter, -⟩ := Analysis.ofMethod_ok h
  rw [hafter, List.getElem?_toArray, List.getElem?_map] at hf
  obtain ⟨⟨id, result⟩, hresult, hframe⟩ := Option.map_eq_some_iff.mp hf
  obtain ⟨r, rfl, rfl⟩ := Option.map_eq_some_iff.mp hframe
  obtain ⟨x, g, hframed, hstep⟩ := (Analysis.results_ok hrs).2 _ (List.mem_of_getElem? hresult) r rfl
  obtain ⟨q, hq⟩ := List.getElem?_of_mem hframed
  have hbefore : a.before[q]? = some (some g) := by
    simpa using (List.getElem?_zip_eq_some.mp hq).2
  exact hP.step id x g r (Analysis.mem_listing_of_mem_framed h hframed) (hP.before h hbefore) hstep

end Method.Maintains

end CoordSplit
