import CoordSplit.Proofs.AssemblyReading
import CoordSplit.Proofs.FlowHistory
import CoordSplit.Proofs.FlowSoundness

/-!
# Faults of an analysis

An instruction cannot be executed if its frame does not fit, and that is an error which is reported. But a store to a
negative slot of a value of the right width, and an array of a negative number of dimensions, are faults
(`Insn.Overreaches`), and reading a text lets both pass.

They are all the faults of instructions. The only other fault is that of a handler with a negative id. So the analysis
of any method comes to an end in one of three ways: nothing is left to be looked at, an error is reported, or there is
such a fault (`Analysis.ofMethod_terminates`). A method that was read from a text has no such handlers, and its analysis
faults iff it comes to an instruction that overreaches (`Assembly.analysis_faults_iff`). Everything else that is wrong
with the method is reported as malformed.
-/

set_option autoImplicit false

namespace CoordSplit

open FlowState

/-! ## Instructions -/

/-- Executing the instruction on the frame takes a slot or a number of dimensions that is negative. -/
inductive Insn.Overreaches : Insn → Frame → Prop
  | store {op : Opcode} {slot : Int} {f : Frame} {t : ValueType} {v : Value} {rest : List Value}
      (ht : op.varType? = some t) (hop : op.isLoad = false) (hslot : slot < 0) (hstack : f.stack = v :: rest)
      (hsize : v.size = t.size) : Overreaches (.var op slot) f
  | dimensions {desc : Text} {dims : Int} {f : Frame} {t : ValueType} (ht : ValueType.parse desc = .ok t)
      (hdims : dims < 0) : Overreaches (.multiArray desc dims) f

/-- The slot of a store and the number of dimensions of an array are not negative. -/
def Insn.InReach : Insn → Prop
  | .var op slot => op.isLoad = true ∨ 0 ≤ slot
  | .multiArray _ dims => 0 ≤ dims
  | _ => True

variable {x : Insn} {f : Frame} {g : Fault}

/-- Slots and dimensions that are not negative are in reach. -/
theorem Insn.InReach.not_overreaches (h : x.InReach) : ¬ x.Overreaches f := by
  intro hover
  cases hover with
  | store ht hop hslot =>
    rcases h with h | h
    · rw [hop] at h
      cases h
    · omega
  | dimensions ht hdims => exact absurd h (not_le.mpr hdims)

/-- The fault of a computation, if it ends in one. -/
def Outcome.fault? {ε α : Type} : Outcome ε α → Option Fault
  | .error (.fault g) => some g
  | _ => none

/-- The fault of an outcome. -/
theorem Outcome.eq_of_fault? {ε α : Type} {x : Outcome ε α} (h : x.fault? = some g) : x = .error (.fault g) := by
  rcases x with (g' | e) | a
  · rw [Option.some.inj h]
  · cases h
  · cases h

/-- A reported error is no fault. -/
theorem Outcome.not_fault_of_lift {ε α : Type} {x : Except ε α} : lift x ≠ .error (.fault g) := by
  cases x <;> simp [lift]

/-- Only a store to a negative slot faults among loads and stores. -/
theorem Insn.overreaches_of_slotAccess {id : Nat} {op : Opcode} {slot : Int}
    (h : Step.slotAccess id op slot f = .error (.fault g)) : Insn.Overreaches (.var op slot) f := by
  rw [Step.slotAccess] at h
  cases ht : op.varType? with
  | none => simp [ht, Outcome.fail] at h
  | some t =>
    simp only [ht] at h
    split at h
    · split at h
      · cases h
      · split at h <;> cases h
    · next hop =>
      split at h
      · cases h
      · next v rest hpop =>
        split at h
        · next k =>
          obtain ⟨hstack, hsize⟩ := Step.pop_ok hpop
          exact .store ht (by simpa using hop) (Int.negSucc_lt_zero k) hstack hsize
        · cases h

/-- Only what overreaches faults. -/
theorem Insn.overreaches_of_step {id : Nat} (h : step id x f = .error (.fault g)) : x.Overreaches f := by
  cases x with
  | var op slot => exact overreaches_of_slotAccess h
  | multiArray desc dims =>
    rw [step] at h
    split at h
    · cases h
    · next t ht =>
      split at h
      · next k => exact .dimensions ht (Int.negSucc_lt_zero k)
      · split at h <;> cases h
  | label => cases h
  | plain op => exact absurd h Outcome.not_fault_of_lift
  | push op value =>
    rw [step] at h
    split at h
    · split at h
      · cases h
      · split at h <;> cases h
    · cases h
  | ldc c =>
    rw [step] at h
    split at h <;> cases h
  | iinc slot delta =>
    rw [step] at h
    split at h
    · cases h
    · split at h <;> cases h
  | jump op target =>
    rw [step] at h
    split at h
    · cases h
    · split at h
      · exact absurd h Outcome.not_fault_of_lift
      · cases h
  | switch op keys otherwise targets => exact absurd h Outcome.not_fault_of_lift
  | field op m =>
    rw [step] at h
    split at h
    · cases h
    · exact absurd h Outcome.not_fault_of_lift
  | call op m itf =>
    rw [step] at h
    split at h
    · cases h
    · exact absurd h Outcome.not_fault_of_lift
  | type op name => exact absurd h Outcome.not_fault_of_lift

/-- What overreaches faults. -/
theorem Insn.Overreaches.step_faults (h : x.Overreaches f) (id : Nat) : ∃ g, step id x f = .error (.fault g) := by
  cases h with
  | @store op slot f t v rest ht hop hslot hstack hsize =>
    obtain ⟨k, rfl⟩ := Int.eq_negSucc_of_lt_zero hslot
    exact ⟨.key, by simp [step, Step.slotAccess, ht, hop, Step.pop, hstack, hsize]⟩
  | @dimensions desc dims f t ht hdims =>
    obtain ⟨k, rfl⟩ := Int.eq_negSucc_of_lt_zero hdims
    exact ⟨.length, by simp [step, ht]⟩

/-- An instruction faults iff it overreaches. -/
theorem step_faults_iff (id : Nat) : (∃ g, step id x f = .error (.fault g)) ↔ x.Overreaches f := by
  refine ⟨?_, fun h => h.step_faults id⟩
  rintro ⟨g, h⟩
  exact Insn.overreaches_of_step h

/-- What has the same widths on its stack overreaches as well. -/
theorem Insn.Overreaches.of_even {g : Frame} (h : x.Overreaches f) (hg : g.CoversEvenly f) : x.Overreaches g := by
  cases h with
  | @store op slot f t v rest ht hop hslot hstack hsize =>
    have heven := hg.stack
    rw [hstack] at heven
    obtain ⟨w, ws, hvw, -, hstack'⟩ := List.forall₂_cons_left_iff.mp heven
    exact .store ht hop hslot hstack' (hvw.size.symm.trans hsize)
  | dimensions ht hdims => exact .dimensions ht hdims

/-! ## Visits -/

/-- Positions lie in the code. -/
def Layout.InRange (l : Layout) : Prop := ∀ id p, l.position? id = some p → p < l.lines.size

/-- They do in every layout of a method. -/
theorem Layout.inRange (m : Method) : (Layout.ofMethod m).InRange := by
  intro id p h
  cases id with
  | negSucc k => cases h
  | ofNat k =>
    unfold position? at h
    dsimp only at h
    split at h
    · next q hq =>
      obtain rfl := Option.some.inj h
      simpa [ofMethod] using m.code.lt_of_getElem?_index hq
    · cases h

namespace FlowState

variable {l : Layout} {s s' : FlowState} {source : InsnId} {p : Nat} {f : Frame} {g : Fault}

/-- To a position of the code, frames flow without a fault. -/
theorem flow_not_fault {target : Option Nat} (htarget : ∀ q, target = some q → q < s.frames.size) :
    s.flow l source target f ≠ .error (.fault g) := by
  intro h
  rw [flow.eq_def] at h
  split at h
  · cases h
  · next q =>
    split at h
    · next hnone => exact absurd (htarget q rfl) (not_lt.mpr (Array.getElem?_eq_none_iff.mp hnone))
    · cases h
    · split at h <;> cases h

/-- No position is lost when a frame flows. -/
theorem size_flow {target : Option Nat} (h : s.flow l source target f = .ok s') : s'.frames.size = s.frames.size := by
  obtain ⟨q, rfl⟩ := position_of_flow h
  exact (flow_extends h).1.size

/-- Branches send frames without a fault. -/
theorem flow_targets_not_fault (hl : l.InRange) {targets : List InsnId} (hs : s.frames.size = l.lines.size) :
    targets.foldlM (fun s t => s.flow l source (l.position? t) f) s ≠ .error (.fault g) := by
  induction targets generalizing s with
  | nil => simp [pure, Except.pure]
  | cons t targets ih =>
    intro h
    rw [List.foldlM_cons] at h
    rcases except_bind_error.mp h with h | ⟨s', hs', h⟩
    · exact flow_not_fault (fun q hq => hs ▸ hl t q hq) h
    · exact ih ((size_flow hs').trans hs) h

variable {x : Insn} {id : InsnId}

/-- Nor does falling through fault. -/
theorem flowNext_not_fault (hs : s.frames.size = l.lines.size) (hp : p < l.lines.size) :
    s.flowNext l p id x f ≠ .error (.fault g) := by
  intro h
  rw [flowNext] at h
  split at h
  · split at h
    · cases h
    · refine flow_not_fault (fun q hq => ?_) h
      obtain rfl := Option.some.inj hq
      omega
  · cases h

/-- Flowing into a handler faults only if its id is negative. -/
theorem flowHandler_fault (hl : l.InRange) {h : Handler} {locals : List (Option Value)}
    (hs : s.frames.size = l.lines.size) (hfault : s.flowHandler l source h locals = .error (.fault g)) :
    h.handler < 0 := by
  rw [flowHandler] at hfault
  split at hfault
  · next k hk =>
    rw [hk]
    exact Int.negSucc_lt_zero k
  · exact absurd hfault (flow_not_fault fun q hq => hs ▸ hl _ q hq)

/-- No position is lost when a handler is entered. -/
theorem size_flowHandler {h : Handler} {locals : List (Option Value)}
    (hflow : s.flowHandler l source h locals = .ok s') :
    s'.frames.size = s.frames.size := by
  obtain ⟨q, -, hflow⟩ := flowHandler_ok hflow
  exact size_flow hflow

/-- Flowing into the handlers of a position faults only if one that covers it has a negative id. -/
theorem flowHandlers_fault (hl : l.InRange) {handlers : List Handler} (hs : s.frames.size = l.lines.size)
    (hfault : flowHandlers l p source f handlers s = .error (.fault g)) :
    ∃ h ∈ handlers, covers l h p = true ∧ h.handler < 0 := by
  induction handlers generalizing s with
  | nil => cases hfault
  | cons h handlers ih =>
    have hrest : ∀ {s : FlowState}, s.frames.size = l.lines.size →
        flowHandlers l p source f handlers s = .error (.fault g) →
        ∃ h' ∈ h :: handlers, covers l h' p = true ∧ h'.handler < 0 := by
      intro s hs hfault
      obtain ⟨h', hmem, hcause⟩ := ih hs hfault
      exact ⟨h', List.mem_cons_of_mem _ hmem, hcause⟩
    rw [flowHandlers] at hfault
    split at hfault
    · next hcovers =>
      rcases except_bind_error.mp hfault with hfault | ⟨s₁, h₁, hfault⟩
      · exact ⟨h, List.mem_cons_self, hcovers, flowHandler_fault hl hs hfault⟩
      · have hs₁ := (size_flowHandler h₁).trans hs
        rcases except_bind_error.mp hfault with hfault | ⟨s₂, h₂, hfault⟩
        · exact ⟨h, List.mem_cons_self, hcovers, flowHandler_fault hl hs₁ hfault⟩
        · exact hrest ((size_flowHandler h₂).trans hs₁) hfault
    · exact hrest hs hfault

/-- Visiting a position faults only if its instruction overreaches on its frame or a handler that covers it has a
negative id. -/
theorem visit_fault (hl : l.InRange) (hs : s.frames.size = l.lines.size)
    (hline : l.lines[p]? = some (id, x)) (hf : s.frames[p]? = some (some f)) (h : s.visit l p = .error (.fault g)) :
    x.Overreaches f ∨ ∃ h ∈ l.method.handlers, covers l h p = true ∧ h.handler < 0 := by
  rw [visit_eq hline hf] at h
  rcases except_bind_error.mp h with h | ⟨r, -, h⟩
  · rcases Outcome.mapError_error h with ⟨g', hg', -⟩ | ⟨e, -, he⟩
    · exact .inl ((step_faults_iff id.toNat).mp ⟨g', hg'⟩)
    · cases he
  · rcases except_bind_error.mp h with h | ⟨s₁, h₁, h⟩
    · exact absurd h (flow_targets_not_fault hl hs)
    · have hs₁ := (sends_targets (p := p) (fun t ht => ht) h₁).1.extends.size.trans hs
      rcases except_bind_error.mp h with h | ⟨s₂, h₂, h⟩
      · exact absurd h (flowNext_not_fault hs₁ (Array.getElem?_eq_some_iff.mp hline).1)
      · exact .inr (flowHandlers_fault hl ((sends_next h₂).1.extends.size.trans hs₁) h)

/-- Visiting a position whose instruction overreaches on its frame faults. -/
theorem visit_faults (hline : l.lines[p]? = some (id, x))
    (hf : s.frames[p]? = some (some f)) (h : x.Overreaches f) : ∃ g, s.visit l p = .error (.fault g) := by
  obtain ⟨g, hg⟩ := h.step_faults id.toNat
  exact ⟨g, by rw [visit_eq hline hf, hg]; rfl⟩

/-- Every queued position has a frame. -/
def Ready (s : FlowState) : Prop := ∀ p ∈ s.queue, ∃ f, s.frames[p]? = some (some f)

/-- Where a frame is sent, there is one then. -/
theorem Ready.sends {after : Frame} (hs : s.Ready) (h : Sends l p source x after s s') : s'.Ready := by
  induction h with
  | refl => exact hs
  | step _ _ hflow ih =>
    intro q hq
    obtain ⟨hextends, g, hg, -⟩ := flow_extends hflow
    rcases mem_queue_of_flow hflow hq with rfl | hq
    · exact ⟨g, hg⟩
    · obtain ⟨f, hf⟩ := ih q hq
      obtain ⟨g', hg', -⟩ := hextends.grows q f hf
      exact ⟨g', hg'⟩

end FlowState

/-! ## Histories -/

namespace Layout.History

variable {l : Layout} {entry : Frame} {es : List FlowEvent} {s : FlowState}

/-- After any history, the edges are accounted for. -/
theorem accounted (h : l.History entry es s) : s.Accounted l := by
  induction h with
  | enter hflow =>
    rw [(eq_start hflow).2]
    exact accounted_start l entry
  | @turn _ _ s _ p rest _ hqueue hvisit _ ih =>
    have hrest : s.queue.erase p = rest := by rw [hqueue, List.erase_cons_head]
    exact ih.visit (hrest.symm ▸ hvisit)

/-- After any history, what is queued has a frame. -/
theorem ready (h : l.History entry es s) : s.Ready := by
  induction h with
  | enter hflow =>
    obtain ⟨hpos, rfl⟩ := eq_start hflow
    intro p hp
    obtain rfl := List.mem_singleton.mp hp
    exact ⟨entry, by simp [start, hpos]⟩
  | @turn _ _ s _ p rest _ hqueue hvisit _ ih =>
    obtain ⟨_, _, _, _, -, -, -, hsends, -⟩ := visit_ok hvisit
    refine FlowState.Ready.sends (s := { s with queue := rest }) ?_ hsends
    intro q hq
    exact ih q (by simp [hqueue, show q ∈ rest from hq])

/-- A run goes through every history that starts like it, in as many turns as positions are taken. -/
theorem run_eq (h : l.History entry es s) :
    ∃ n, n + s.queue.length ≤ FlowEvent.raises es ∧
      ∀ fuel, (start l entry).run l (n + fuel) = s.run l fuel := by
  induction h with
  | enter hflow =>
    rw [(eq_start hflow).2]
    exact ⟨0, le_rfl, fun fuel => by rw [Nat.zero_add]⟩
  | @turn es ms s s' p rest _ hqueue hvisit hmerges ih =>
    obtain ⟨n, hn, hrun⟩ := ih
    have hmore := hmerges.length_queue_le
    rw [hqueue, List.length_cons] at hn
    simp only at hmore
    refine ⟨n + 1, ?_, fun fuel => ?_⟩
    · rw [raises_turn _ _ hmerges]
      omega
    · calc (start l entry).run l (n + 1 + fuel) = s.run l (fuel + 1) := by
            rw [← hrun, Nat.add_right_comm, Nat.add_assoc]
        _ = s'.run l fuel := by simp only [run, hqueue, hvisit]

/-- A visit that fails at the end of a history makes the loop fail. -/
theorem loop_error {m : Method} {params : List ValueType} {p : Nat} {rest : List Nat} {e : Failure FlowError}
    (h : (Layout.ofMethod m).History (Analysis.entry params) es s) (hqueue : s.queue = p :: rest)
    (hvisit : visit (.ofMethod m) p { s with queue := rest } = .error e) :
    Analysis.loop m params = .error e := by
  obtain ⟨n, hn, hrun⟩ := h.run_eq
  have hbound := h.raises_le
  rw [hqueue, List.length_cons] at hn
  obtain ⟨fuel, hfuel⟩ : ∃ fuel, (Layout.ofMethod m).visitBound params.length = n + (fuel + 1) :=
    ⟨(Layout.ofMethod m).visitBound params.length - (n + 1), by omega⟩
  rw [Analysis.loop, hfuel, hrun]
  simp only [run, hqueue, hvisit]

end Layout.History

/-! ## Analyses -/

/-- The analysis of a method comes to an instruction that overreaches: after the events of some history, the position
to be looked at next has a frame on which its instruction does. -/
inductive Method.Overreaches (owner : Text) (m : Method) : Prop
  | intro {params : List ValueType} {es : List FlowEvent} {s : FlowState} {p : Nat} {rest : List Nat} {id : InsnId}
      {x : Insn} {f : Frame} (hparams : m.params owner = .ok params)
      (hhistory : (Layout.ofMethod m).History (Analysis.entry params) es s) (hqueue : s.queue = p :: rest)
      (hline : m.code.listing[p]? = some (id, x)) (hframe : s.frames[p]? = some (some f)) (hover : x.Overreaches f) :
      Overreaches owner m

namespace Analysis

variable {owner : Text} {m : Method} {g : Fault}

/-- The results fault only at what overreaches. -/
theorem results_fault {ls : List ((InsnId × Insn) × Option Frame)} (h : results ls = .error (.fault g)) :
    ∃ id x f, ((id, x), some f) ∈ ls ∧ x.Overreaches f := by
  induction ls with
  | nil => cases h
  | cons line ls ih =>
    obtain ⟨⟨id, x⟩, o⟩ := line
    have hrest : results ls = .error (.fault g) → ∃ i y f, ((i, y), some f) ∈ ((id, x), o) :: ls ∧ y.Overreaches f := by
      intro h
      obtain ⟨i, y, f, hmem, hover⟩ := ih h
      exact ⟨i, y, f, List.mem_cons_of_mem _ hmem, hover⟩
    cases o with
    | none =>
      rw [results] at h
      rcases except_bind_error.mp h with h | ⟨tail, -, h⟩
      · exact hrest h
      · cases h
    | some f =>
      rw [results] at h
      rcases except_bind_error.mp h with h | ⟨r, -, h⟩
      · rcases Outcome.mapError_error h with ⟨g', hg', -⟩ | ⟨e, -, he⟩
        · exact ⟨id, x, f, List.mem_cons_self, (step_faults_iff _).mp ⟨g', hg'⟩⟩
        · cases he
      · rcases except_bind_error.mp h with h | ⟨tail, -, h⟩
        · exact hrest h
        · cases h

variable {s : FlowState} {params : List ValueType}

/-- What was executed when the loop ended can be executed again. -/
theorem results_not_fault {entry : Frame} {es : List FlowEvent}
    (h : (Layout.ofMethod m).History entry es s) (hqueue : s.queue = []) :
    results ((Layout.ofMethod m).lines.toList.zip s.frames.toList) ≠ .error (.fault g) := by
  intro hfault
  obtain ⟨id, x, f, hmem, hover⟩ := results_fault hfault
  obtain ⟨p, hp⟩ := List.getElem?_of_mem hmem
  obtain ⟨hline, hframe⟩ := List.getElem?_zip_eq_some.mp hp
  rw [Array.getElem?_toList] at hline hframe
  obtain ⟨f', hcovers, id', x', r, hline', hstep, -⟩ := h.accounted p f hframe (by simp [hqueue])
  obtain ⟨rfl, rfl⟩ := Prod.mk.inj (Option.some.inj (hline.symm.trans hline'))
  obtain ⟨g', hg'⟩ := (step_faults_iff id.toNat).mpr (hover.of_even hcovers)
  cases hg'.symm.trans hstep

/-- An analysis that faults has entered its loop. -/
theorem params_of_fault (h : ofMethod owner m = .error (.fault g)) :
    m.code.listing ≠ [] ∧ ∃ params, m.params owner = .ok params := by
  have hcode : m.code.listing ≠ [] := by
    intro hnil
    simp only [ofMethod, Layout.ofMethod, hnil, List.isEmpty_toArray, List.isEmpty_nil, if_true] at h
    cases h
  refine ⟨hcode, ?_⟩
  cases hparams : m.params owner with
  | ok params => exact ⟨params, rfl⟩
  | error e =>
    have hnonempty : ¬ (Layout.ofMethod m).lines.isEmpty = true := by simpa [Layout.ofMethod] using hcode
    simp only [ofMethod, if_neg hnonempty, hparams] at h
    cases h

/-- A visit that faults at the end of a history is that of an instruction that overreaches on its frame, or of one that
a handler with a negative id covers. -/
theorem cause_of_fault {es : List FlowEvent} {p : Nat} {rest : List Nat}
    (h : (Layout.ofMethod m).History (entry params) es s) (hqueue : s.queue = p :: rest)
    (hvisit : visit (.ofMethod m) p { s with queue := rest } = .error (.fault g)) :
    ∃ id x f, m.code.listing[p]? = some (id, x) ∧ s.frames[p]? = some (some f) ∧
      (x.Overreaches f ∨ ∃ h ∈ m.handlers, covers (.ofMethod m) h p = true ∧ h.handler < 0) := by
  have hs : s.frames.size = (Layout.ofMethod m).lines.size :=
    (h.bounded (Layout.sized m params.length) (entry_within params (le_max_left _ _)) rfl).2
  obtain ⟨f, hf⟩ := h.ready p (by simp [hqueue])
  obtain ⟨⟨id, x⟩, hline⟩ : ∃ line, (Layout.ofMethod m).lines[p]? = some line :=
    ⟨_, Array.getElem?_eq_getElem (hs ▸ (Array.getElem?_eq_some_iff.mp hf).1)⟩
  refine ⟨id, x, f, by simpa [Layout.ofMethod] using hline, hf, ?_⟩
  exact visit_fault (s := { s with queue := rest }) (Layout.inRange m) hs hline hf hvisit

/-- The analysis of a method whose handlers have no negative ids faults iff it comes to an instruction that
overreaches. -/
theorem ofMethod_faults_iff (hhandlers : ∀ h ∈ m.handlers, 0 ≤ h.handler) (owner : Text) :
    (∃ g, ofMethod owner m = .error (.fault g)) ↔ m.Overreaches owner := by
  constructor
  · rintro ⟨g, h⟩
    obtain ⟨hcode, params, hparams⟩ := params_of_fault h
    obtain ⟨es, s, hhistory, ⟨hqueue, hloop, -⟩ | ⟨p, rest, e, hqueue, hvisit, -, hfails⟩⟩ :=
      exists_history hparams hcode
    · exact absurd (((ofMethod_of_loop hparams hcode).2 _ hloop).2 _ h) (results_not_fault hhistory hqueue)
    · obtain rfl := Except.error.inj (hfails.symm.trans h)
      obtain ⟨id, x, f, hline, hf, hover | ⟨e, he, -, hneg⟩⟩ := cause_of_fault hhistory hqueue hvisit
      · exact ⟨hparams, hhistory, hqueue, hline, hf, hover⟩
      · exact absurd hneg (not_lt.mpr (hhandlers e he))
  · rintro @⟨params, es, s, p, rest, id, x, f, hparams, hhistory, hqueue, hline, hf, hover⟩
    obtain ⟨g, hvisit⟩ := visit_faults (l := .ofMethod m) (s := { s with queue := rest })
      (by simpa [Layout.ofMethod] using hline) hf hover
    exact ⟨g, (ofMethod_of_loop hparams (List.ne_nil_of_mem (List.mem_of_getElem? hline))).1 _
      (hhistory.loop_error hqueue hvisit)⟩

/-! ## How an analysis ends -/

/-- The loop of an analysis that enters the code with the given parameters ends in a state. -/
inductive Ends (owner : Text) (m : Method) (params : List ValueType) (s : FlowState) : Prop
  /-- Nothing is left to be looked at. -/
  | done (hqueue : s.queue = []) (hloop : loop m params = .ok s)
      (hframes : ∀ a, ofMethod owner m = .ok a → a.before = s.frames) : Ends owner m params s
  /-- A visit fails with an error, which is reported. -/
  | reported {p : Nat} {rest : List Nat} {e : FlowError} (hqueue : s.queue = p :: rest)
      (hvisit : visit (.ofMethod m) p { s with queue := rest } = .fail e) (hloop : loop m params = .fail e)
      (hresult : ofMethod owner m = .fail e) : Ends owner m params s
  /-- A visit faults, and the analysis with it: the instruction overreaches on its frame, or a handler with a negative
  id covers it. -/
  | faulted {p : Nat} {rest : List Nat} {id : InsnId} {x : Insn} {f : Frame} {g : Fault} (hqueue : s.queue = p :: rest)
      (hline : m.code.listing[p]? = some (id, x)) (hframe : s.frames[p]? = some (some f))
      (hcause : x.Overreaches f ∨ ∃ h ∈ m.handlers, covers (.ofMethod m) h p = true ∧ h.handler < 0)
      (hloop : loop m params = .error (.fault g)) (hresult : ofMethod owner m = .error (.fault g)) :
      Ends owner m params s

end Analysis

/-! ## Methods read from texts -/

/-- The handlers of a method that was read from a text are labels of its code. -/
theorem Assembly.handlers_of_parse {t : Text} {c : ClassModel} (h : parse t = .ok c) {m : Method}
    (hm : m ∈ c.methods) : ∀ e ∈ m.handlers, 0 ≤ e.handler := by
  intro e he
  have hlabel := ((Method.anchored_iff.mp ((parse_spelled h).methods m hm).anchored).2.2 e he).2.2
  exact (Code.nonneg_of_mem_listing (Code.mem_labels.mp hlabel)).1

/-- The analysis of a method that was read from a text faults iff it comes to an instruction that overreaches. If it
does not, it gives a result or reports that the method is malformed, and it never does if the slots of stores and the
numbers of dimensions are not negative. -/
theorem Assembly.analysis_faults_iff {t : Text} {c : ClassModel} (h : parse t = .ok c) {m : Method} (hm : m ∈ c.methods)
    (owner : Text) :
    ((∃ g, Analysis.ofMethod owner m = .error (.fault g)) ↔ m.Overreaches owner) ∧
    (¬ m.Overreaches owner → (∃ a, Analysis.ofMethod owner m = .ok a) ∨
      ∃ e, Analysis.ofMethod owner m = .fail e ∧ e.diagnostic.kind = .malformed e.place) ∧
    ((∀ p ∈ m.code.listing, p.2.InReach) → ¬ m.Overreaches owner) := by
  have hiff := Analysis.ofMethod_faults_iff (handlers_of_parse h hm) owner
  refine ⟨hiff, fun hnot => ?_, fun hreach hover => ?_⟩
  · cases hresult : Analysis.ofMethod owner m with
    | ok a => exact .inl ⟨a, rfl⟩
    | error e =>
      cases e with
      | fault g => exact absurd (hiff.mp ⟨g, hresult⟩) hnot
      | error e => exact .inr ⟨e, rfl, rfl⟩
  · obtain ⟨-, -, -, hline, -, hover⟩ := hover
    exact (hreach _ (List.mem_of_getElem? hline)).not_overreaches hover

/-- A method that stores an int in a negative slot, as it is written. -/
def Assembly.negativeSlot : Text :=
  "class C\nmethod static m ()V\n\ticonst_0\n\tistore -1\n\treturn\nend\n"

/-- The text can be read, and the analysis of its method comes to the store and faults. -/
theorem Assembly.analysis_faults_iff_negativeSlot : ∃ c m, parse negativeSlot = .ok c ∧ m ∈ c.methods ∧
    Analysis.ofMethod "C" m = .error (.fault .key) ∧ m.Overreaches "C" ∧ ∃ p ∈ m.code.listing, ¬ p.2.InReach := by
  have hruns : ((parse negativeSlot).toOption.bind fun c => c.methods.head?.map fun m =>
      (Analysis.ofMethod "C" m).fault?) = some (some .key) := by decide +kernel
  obtain ⟨c, hc, hhead⟩ := Option.bind_eq_some_iff.mp hruns
  obtain ⟨m, hm, hfault⟩ := Option.map_eq_some_iff.mp hhead
  have hread := except_ok_of_toOption hc
  have hmem := List.mem_of_mem_head? hm
  have hfault := Outcome.eq_of_fault? hfault
  obtain ⟨hiff, -, hreach⟩ := analysis_faults_iff hread hmem "C"
  have hover := hiff.mp ⟨.key, hfault⟩
  refine ⟨c, m, hread, hmem, hfault, hover, ?_⟩
  by_contra hall
  exact hreach (by simpa using hall) hover

end CoordSplit
