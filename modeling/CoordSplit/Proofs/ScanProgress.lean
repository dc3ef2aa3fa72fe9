import CoordSplit.Proofs.PatternScan

/-!
# A scan comes to its end

A scan does not move on after a replacement, and a replacement may put in more instructions than it takes
out, so places are no measure of how far a scan is. What goes down with every replacement is the number of
loads and stores of expanded slots (`Pattern.applyNext_packedAccesses`).

`PatternRun.Scans` is the scan without a bound on its replacements. The main result
(`PatternRun.ofCode_scans`) is that `PatternRun.ofCode` is such a scan, so its bound never cuts it short.
-/

set_option autoImplicit false

namespace CoordSplit

open Code Pattern

/-! ## Accesses of expanded slots -/

/-- Whether an instruction loads or stores an expanded slot. -/
def ExpansionContext.isPackedAccess (c : ExpansionContext) : Insn → Bool
  | .var .lload slot | .var .lstore slot => c.slots.isFirst slot
  | _ => false

theorem PatternRun.packedAccesses_eq (c : ExpansionContext) (code : Code) :
    PatternRun.packedAccesses c code = code.listing.countP fun p => c.isPackedAccess p.2 := rfl

namespace Pattern

variable {c : ExpansionContext} {x : Insn}

theorem isPackedAccess_of_isPackedLoad (h : c.isPackedLoad x = true) : c.isPackedAccess x = true := by
  obtain ⟨slot, rfl, hs⟩ := Machine.isPackedLoad_iff.mp h
  exact hs

theorem isPackedAccess_of_push (h : x.isIntPush = true ∨ x.isRefPush = true) : c.isPackedAccess x = false := by
  cases x with
  | var op slot =>
    have hop : op = .iload ∨ op = .aload := by simpa [Insn.isIntPush, Insn.isRefPush] using h
    rcases hop with rfl | rfl <;> rfl
  | _ => rfl

variable {n : Nat} {w out : List (InsnId × Insn)}

/-- What a pattern puts in accesses no expanded slot, whatever the catalog supplies. -/
theorem Rewrites.not_isPackedAccess (h : Rewrites c n w out) :
    ∀ x ∈ out.map Prod.snd, c.isPackedAccess x = false := by
  intro x hmem
  cases Machine.produced_of_rewrites h x hmem with
  | kept _ hx => exact isPackedAccess_of_push hx
  | part hop => rcases hop with rfl | rfl <;> rfl
  | _ => rfl

/-- What a pattern takes out accesses an expanded slot. -/
theorem Rewrites.exists_isPackedAccess (h : Rewrites c n w out) :
    ∃ x ∈ w.map Prod.snd, c.isPackedAccess x = true := by
  have hoperands : ∀ {a b : Insn} {rest : List Insn}, w.map Prod.snd = a :: b :: rest →
      c.isPackedLoad a = true ∨ c.isPackedLoad b = true → ∃ x ∈ w.map Prod.snd, c.isPackedAccess x = true := by
    intro a b rest hw hload
    rw [hw]
    rcases hload with hload | hload
    · exact ⟨a, by simp, isPackedAccess_of_isPackedLoad hload⟩
    · exact ⟨b, by simp, isPackedAccess_of_isPackedLoad hload⟩
  cases h with
  | @unpack slot _ _ _ _ hw hs ha =>
    rw [hw]
    exact ⟨.var .lload slot, by simp, hs⟩
  | unequal hw ha hb hload => exact hoperands hw hload
  | equal hw ha hb hload => exact hoperands hw hload
  | @store _ _ slot hw hp hs =>
    rw [hw]
    exact ⟨.var .lstore slot, by simp, hs⟩

variable {code next : Code}

/-- A replacement takes an access of an expanded slot away. -/
theorem Rewrites.packedAccesses_lt (h : Rewrites c n w out) {pre post : List (InsnId × Insn)}
    (hcode : code.listing = pre ++ w ++ post) (hnext : next.listing = pre ++ out ++ post) :
    PatternRun.packedAccesses c next < PatternRun.packedAccesses c code := by
  have hout : (out.countP fun p => c.isPackedAccess p.2) = 0 := by
    rw [List.countP_eq_zero]
    intro p hp
    simp [h.not_isPackedAccess p.2 (List.mem_map_of_mem hp)]
  have hw : 0 < w.countP fun p => c.isPackedAccess p.2 := by
    obtain ⟨x, hx, haccess⟩ := h.exists_isPackedAccess
    obtain ⟨p, hp, rfl⟩ := List.mem_map.mp hx
    exact List.countP_pos_iff.mpr ⟨p, hp, haccess⟩
  simp only [PatternRun.packedAccesses_eq, hcode, hnext, List.countP_append]
  omega

/-- A replacement takes at least one access of an expanded slot away. -/
theorem applyNext_packedAccesses (h : code.WellLinked) {i j : Nat} {p : Pattern}
    (hc : applyNext c code i (code.listing.drop i) = .ok (some (j, p, next))) :
    next.WellLinked ∧ PatternRun.packedAccesses c next < PatternRun.packedAccesses c code := by
  obtain ⟨pre, w, out, post, hlisting, -, -, hr, hnew⟩ := applyNext_rewrites h hc
  exact ⟨hnew.wellLinked, hr.packedAccesses_lt hlisting hnew.listing_eq⟩

end Pattern

/-! ## Scans without a bound -/

namespace PatternRun

variable {c : ExpansionContext}

/-- A scan from the `i`-th instruction on ends, and with what. -/
inductive Scans (c : ExpansionContext) : Nat → PatternRun → PatternRun → Prop
  | done {i : Nat} {r : PatternRun} (hi : r.code.listing.length ≤ i) : Scans c i r r
  | fails {i : Nat} {r : PatternRun} {e : Pattern × Failure PatternError} (hi : i < r.code.listing.length)
      (h : applyFirst c r.code (r.code.listing.drop i) all = .error e) : Scans c i r { r with failed := some e }
  | advance {i : Nat} {r r' : PatternRun} (hi : i < r.code.listing.length)
      (h : applyFirst c r.code (r.code.listing.drop i) all = .ok none) (hrest : Scans c (i + 1) r r') :
      Scans c i r r'
  | rewrite {i : Nat} {r r' : PatternRun} {p : Pattern} {next : Code} (hi : i < r.code.listing.length)
      (h : applyFirst c r.code (r.code.listing.drop i) all = .ok (some (p, next)))
      (hrest : Scans c i { r with code := next, applied := p :: r.applied } r') : Scans c i r r'

variable {i : Nat} {r : PatternRun}

/-- A scan has one outcome. -/
theorem Scans.unique {r₁ r₂ : PatternRun} (h₁ : Scans c i r r₁) (h₂ : Scans c i r r₂) : r₁ = r₂ := by
  induction h₁ with
  | done hi =>
    cases h₂ with
    | done => rfl
    | _ => omega
  | fails hi h =>
    cases h₂ with
    | done => omega
    | fails _ h' =>
      rw [h] at h'
      rw [Except.error.inj h']
    | advance _ h' => simp [h] at h'
    | rewrite _ h' => simp [h] at h'
  | advance hi h hrest ih =>
    cases h₂ with
    | done => omega
    | fails _ h' => simp [h] at h'
    | advance _ _ hrest' => exact ih hrest'
    | rewrite _ h' => simp [h] at h'
  | rewrite hi h hrest ih =>
    cases h₂ with
    | done => omega
    | fails _ h' => simp [h] at h'
    | advance _ h' => simp [h] at h'
    | rewrite _ h' hrest' =>
      simp only [h, Except.ok.injEq, Option.some.injEq, Prod.mk.injEq] at h'
      obtain ⟨rfl, rfl⟩ := h'
      exact ih hrest'

/-- The next place is looked for one instruction at a time. -/
theorem Scans.of_applyNext {run : List (InsnId × Insn)} (hrun : r.code.listing.drop i = run) :
    (∀ e, applyNext c r.code i run = .error e → Scans c i r { r with failed := some e }) ∧
    (applyNext c r.code i run = .ok none → Scans c i r r) ∧
    ∀ j p next r', applyNext c r.code i run = .ok (some (j, p, next)) →
      Scans c j { r with code := next, applied := p :: r.applied } r' → Scans c i r r' := by
  induction run generalizing i with
  | nil =>
    refine ⟨?_, ?_, ?_⟩
    · simp [applyNext]
    · exact fun _ => .done (List.drop_eq_nil_iff.mp hrun)
    · simp [applyNext]
  | cons x run ih =>
    have hi : i < r.code.listing.length := by
      by_contra hlt
      rw [List.drop_of_length_le (by omega)] at hrun
      simp at hrun
    have htail : r.code.listing.drop (i + 1) = run := by
      rw [← List.tail_drop, hrun, List.tail_cons]
    obtain ⟨hfails, hdone, hfound⟩ := ih htail
    rw [applyNext]
    cases hfirst : applyFirst c r.code (x :: run) all with
    | error e =>
      rw [← hrun] at hfirst
      refine ⟨?_, ?_, ?_⟩
      · rintro e' he
        rw [← Except.error.inj he]
        exact .fails hi hfirst
      · simp
      · simp
    | ok o =>
      rw [← hrun] at hfirst
      cases o with
      | none =>
        refine ⟨?_, ?_, ?_⟩
        · exact fun e he => .advance hi hfirst (hfails e he)
        · exact fun hnone => .advance hi hfirst (hdone hnone)
        · exact fun j p next r' hnext hrest => .advance hi hfirst (hfound j p next r' hnext hrest)
      | some found =>
        obtain ⟨p, next⟩ := found
        refine ⟨?_, ?_, ?_⟩
        · simp
        · simp
        · rintro j p' next' r' hnext hrest
          simp only [Except.ok.injEq, Option.some.injEq, Prod.mk.injEq] at hnext
          obtain ⟨rfl, rfl, rfl⟩ := hnext
          exact .rewrite hi hfirst hrest

/-- A bound above the number of accesses of expanded slots does not cut a scan short. -/
theorem scan_scans {fuel : Nat} (h : r.code.WellLinked)
    (hfuel : packedAccesses c r.code < fuel) : Scans c i r (scan c fuel i r) := by
  induction fuel generalizing i r with
  | zero => omega
  | succ fuel ih =>
    obtain ⟨hfails, hdone, hfound⟩ := Scans.of_applyNext (c := c) (r := r) (i := i) rfl
    rw [scan]
    cases hnext : applyNext c r.code i (r.code.listing.drop i) with
    | error e => exact hfails e hnext
    | ok o =>
      cases o with
      | none => exact hdone hnext
      | some found =>
        obtain ⟨j, p, next⟩ := found
        obtain ⟨hlinked, hlt⟩ := applyNext_packedAccesses h hnext
        exact hfound j p next _ hnext (ih hlinked (by simp only; omega))

/-! ## How many replacements there are -/

/-- So there are no more replacements than such accesses. -/
theorem length_scanRewrites_le {fuel : Nat} {code : Code} (h : code.WellLinked) :
    (scanRewrites c fuel i code).length ≤ packedAccesses c code := by
  induction fuel generalizing i code with
  | zero => simp [scanRewrites]
  | succ fuel ih =>
    rw [scanRewrites]
    split
    · next j p next hnext =>
      obtain ⟨hlinked, hlt⟩ := applyNext_packedAccesses h hnext
      have hrest := @ih j next hlinked
      rw [List.length_cons]
      omega
    · simp

theorem packedAccesses_lt_of_mem_rewrites {code : Code} (h : code.WellLinked) {r : Rewrite}
    (hr : r ∈ rewrites c code) : packedAccesses c r.after < packedAccesses c r.before := by
  obtain ⟨k, hlinked, hnext⟩ := of_mem_scanRewrites (P := fun code _ => code.WellLinked)
    (fun hcode hnext => (applyNext_packedAccesses hcode hnext).1) h hr
  exact (applyNext_packedAccesses hlinked hnext).2

/-- Every pattern that was replaced is counted under one name. -/
theorem sum_counts (r : PatternRun) : (r.counts.map Prod.snd).sum = r.applied.length := by
  have hzero : ∀ ps : List Pattern, ((ps.filterMap fun p =>
      if r.applied.count p = 0 then none else some (p.name, r.applied.count p)).map Prod.snd).sum =
      (ps.map fun p => r.applied.count p).sum := by
    intro ps
    induction ps with
    | nil => rfl
    | cons p ps ih =>
      by_cases hp : r.applied.count p = 0
      · simp [hp, ih]
      · simp [hp, ih]
  rw [counts, hzero]
  induction r.applied with
  | nil => rfl
  | cons p ps ih =>
    cases p <;> simp [List.count_cons] at ih ⊢ <;> omega

end PatternRun

/-! ## Maps without expanded slots -/

namespace Pattern

variable {c : ExpansionContext}

/-- Only a window with a packed load has a strict plan. -/
theorem isPackedLoad_of_strict {p : Pattern} {xs : List Insn} {n : Nat} {part : Axis → List Insn}
    (h : p.recognise c xs = some (.store n true part)) : ∃ x, c.isPackedLoad x = true := by
  revert h
  fun_cases recognise c p xs with
  | case3 x r op m itf tail o ho h =>
    simp only [Bool.and_eq_true] at h
    exact fun _ => ⟨x, h.1.1⟩
  | case6 a b x tail h =>
    rw [comparePlan.eq_def]
    split <;> simp
  | _ => simp +contextual [Option.bind_eq_some_iff]

/-- Where no slot was expanded, every plan is dropped. -/
theorem carryOut_of_no_first (h : ∀ slot, c.slots.isFirst slot = false) (code : Code)
    {run : List (InsnId × Insn)} {p : Pattern} {plan : Plan}
    (hplan : p.recognise c (run.map Prod.snd) = some plan) : carryOut c code run plan = .ok none := by
  have hload : ∀ x, c.isPackedLoad x = false := by
    intro x
    rw [Bool.eq_false_iff]
    intro hx
    obtain ⟨slot, -, hs⟩ := Machine.isPackedLoad_iff.mp hx
    simp [h] at hs
  generalize hxs : run.map Prod.snd = xs at hplan
  cases recognise_recognised hplan with
  | unpack hs ha => simp [h] at hs
  | compare ha hb hpacked => simp [hload] at hpacked
  | @parts load rest strict part hp =>
    have hfalse : strict = false := by
      rw [Bool.eq_false_iff]
      rintro rfl
      obtain ⟨x, hx⟩ := isPackedLoad_of_strict hplan
      simp [hload] at hx
    subst hfalse
    simp only [carryOut, h, Bool.false_eq_true, if_false]
    split <;> rfl

theorem applyFirst_of_no_first (h : ∀ slot, c.slots.isFirst slot = false) (code : Code)
    (run : List (InsnId × Insn)) (ps : List Pattern) : applyFirst c code run ps = .ok none := by
  induction ps with
  | nil => rfl
  | cons p ps ih =>
    rw [applyFirst]
    cases hplan : p.recognise c (run.map Prod.snd) with
    | none => exact ih
    | some plan =>
      simp only [carryOut_of_no_first h code hplan]
      exact ih

theorem applyNext_of_no_first (h : ∀ slot, c.slots.isFirst slot = false) (code : Code)
    (run : List (InsnId × Insn)) (i : Nat) : applyNext c code i run = .ok none := by
  induction run generalizing i with
  | nil => rfl
  | cons x run ih =>
    rw [applyNext, applyFirst_of_no_first h code]
    exact ih (i + 1)

end Pattern

namespace PatternRun

theorem ofCode_of_no_first {c : ExpansionContext} (h : ∀ slot, c.slots.isFirst slot = false) (code : Code) :
    ofCode c code = ⟨code, [], none⟩ := by
  rw [ofCode, scan, applyNext_of_no_first h]

/-- The scan of the patterns comes to its end, behind the last instruction or where a pattern is refused: the
one outcome of the scan without a bound on its replacements is `ofCode`. Each of the replacements takes at
least one load or store of an expanded slot away, so there are no more of them than such loads and stores at
the start, and the counts of the patterns add up to their number. Where no slot is expanded, nothing is
replaced. -/
theorem ofCode_scans (c : ExpansionContext) {code : Code} (hcode : code.WellLinked) :
    (∀ r, Scans c 0 ⟨code, [], none⟩ r ↔ r = ofCode c code) ∧
    (∀ r ∈ rewrites c code, packedAccesses c r.after < packedAccesses c r.before) ∧
    (ofCode c code).applied.length = (rewrites c code).length ∧
    (ofCode c code).applied.length ≤ packedAccesses c code ∧
    ((ofCode c code).counts.map Prod.snd).sum = (ofCode c code).applied.length ∧
    (c.slots = .ofSlots .empty → ofCode c code = ⟨code, [], none⟩) := by
  have hlength : (ofCode c code).applied.length = (rewrites c code).length := by
    rw [ofCode, (scan_eq_rewrites c _ 0 ⟨code, [], none⟩).2]
    simp [rewrites]
  have hscans : Scans c 0 ⟨code, [], none⟩ (ofCode c code) := scan_scans hcode (Nat.lt_succ_self _)
  refine ⟨?_, ?_, hlength, ?_, sum_counts _, ?_⟩
  · intro r
    constructor
    · exact fun h => h.unique hscans
    · rintro rfl
      exact hscans
  · exact fun r hr => packedAccesses_lt_of_mem_rewrites hcode hr
  · rw [hlength]
    exact length_scanRewrites_le hcode
  · intro hslots
    apply ofCode_of_no_first
    intro slot
    rw [hslots]
    cases slot with
    | ofNat k => rfl
    | negSucc k => rfl

/-- Both windows of a code with two accesses are replaced, and the scan of it ends. -/
theorem ofCode_scans_twoWindows :
    let c : ExpansionContext := ⟨TwoWindows.catalog, .ofSlots (.singleton 0)⟩
    let code := Code.ofList TwoWindows.insns
    packedAccesses c code = 2 ∧ (ofCode c code).counts = [("compare", 1), ("unpack", 1)] ∧
    Scans c 0 ⟨code, [], none⟩ (ofCode c code) ∧ (ofCode c code).applied.length ≤ 2 ∧
    ∀ r ∈ rewrites c code, packedAccesses c r.after < packedAccesses c r.before := by
  intro c code
  have hpacked : packedAccesses c code = 2 := by decide +kernel
  obtain ⟨hscans, hlt, -, hle, -, -⟩ := ofCode_scans c (holds_ofList TwoWindows.insns).wellLinked
  rw [hpacked] at hle
  exact ⟨hpacked, by decide +kernel, (hscans _).mpr rfl, hle, hlt⟩

end PatternRun

end CoordSplit
