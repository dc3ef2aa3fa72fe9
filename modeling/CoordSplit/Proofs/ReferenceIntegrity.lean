import CoordSplit.Proofs.MovedCode
import CoordSplit.Proofs.ProducerTyping

/-!
# What rewriting keeps of a code

Moving slots, replacing patterns and converting calls change a code line by line. `Code.Reworks` says what they all
keep: labels stay where they are among each other, branches that go to labels still do, and the lines that no stage
touches (`Insn.isFixture`) are the same as before. What holds of every instruction before, and of all that a stage puts
in (`ExpansionContext.Admits`), holds of every instruction afterwards.

Each stage is shown to rework the code it is given, whatever the catalog and the analysis say, and also if it fails.
-/

set_option autoImplicit false

namespace CoordSplit

/-! ## Instructions -/

namespace Insn

variable {x : Insn}

theorem isFixture_mapInsn (s : SlotMap) (x : Insn) : (s.mapInsn x).isFixture = x.isFixture := by
  cases x <;> rfl

theorem isLabel_mapInsn (s : SlotMap) (x : Insn) : (s.mapInsn x).isLabel = x.isLabel := by
  cases x <;> rfl

theorem targets_mapInsn (s : SlotMap) (x : Insn) : (s.mapInsn x).targets = x.targets := by
  cases x <;> rfl

theorem mapInsn_of_isFixture (s : SlotMap) (h : x.isFixture = true) : s.mapInsn x = x := by
  cases x <;> first | rfl | simp [isFixture] at h

theorem eq_label_of_isLabel (h : x.isLabel = true) : x = .label := by
  cases x <;> first | rfl | simp [isLabel] at h

end Insn

namespace ExpansionContext

/-- The instructions that rewriting puts in. -/
inductive Added (c : ExpansionContext) : Insn → Prop
  | part {op : Opcode} {slot : Int} (h : op = .iload ∨ op = .istore) (hs : c.slots.isFirst slot = true) (axis : Axis) :
      Added c (.var op (slot + axis.index))
  | sentinel (value : Int32) : Added c (.ldc (.int value))
  | accessor (m : Member) : Added c (.ofAccessor m)
  | plain {op : Opcode} (h : op ∈ [.iadd, .pop, .dup, .swap]) : Added c (.plain op)
  | jump {op : Opcode} (h : op = .ifIcmpne ∨ op = .ifIcmpeq) (target : InsnId) : Added c (.jump op target)
  | label : Added c .label

/-- A property of instructions that holds of all that rewriting may put into a code besides what was there. -/
structure Admits (c : ExpansionContext) (Q : Insn → Prop) : Prop where
  added : ∀ {x}, c.Added x → Q x
  redirected : ∀ {op m itf} (m' : Member), Q (.call op m itf) → Q (.call op m' itf)

variable {c : ExpansionContext} {x : Insn}

theorem Added.not_fixture (h : c.Added x) : x.isFixture = false := by
  cases h <;> rfl

/-- Operands give way to loads of parts and to parts of the sentinel. -/
theorem added_narrow (hx : c.isOperand x = true) (axis : Axis) : c.Added (c.narrow x axis) := by
  rcases Machine.isOperand_iff.mp hx with ⟨slot, rfl, hs⟩ | rfl
  · exact .part (.inl rfl) hs axis
  · exact .sentinel _

end ExpansionContext

/-- A property of instructions that does not depend on what rewriting changes. -/
structure Insn.Stable (Q : Insn → Prop) : Prop where
  admits : ∀ c : ExpansionContext, c.Admits Q
  moved : ∀ (s : SlotMap) {x}, Q x → Q (s.mapInsn x)

/-! ## Codes -/

namespace Code

/-- The labels of a code, in order. -/
def labels (c : Code) : List InsnId := (c.listing.filter fun p => p.2.isLabel).map Prod.fst

/-- The lines of a code that rewriting does not touch, in order. -/
def fixtures (c : Code) : List (InsnId × Insn) := c.listing.filter fun p => p.2.isFixture

variable {c d e : Code} {pre w out post : List (InsnId × Insn)}

theorem mem_labels {q : InsnId} : q ∈ c.labels ↔ (q, .label) ∈ c.listing := by
  simp only [labels, List.mem_map, List.mem_filter]
  constructor
  · rintro ⟨⟨q, x⟩, ⟨hx, hlabel⟩, rfl⟩
    rwa [← Insn.eq_label_of_isLabel hlabel]
  · intro h
    exact ⟨_, ⟨h, rfl⟩, rfl⟩

theorem Holds.labels_eq (h : c.Holds (pre ++ w ++ post)) :
    c.labels = (pre.filter fun p => p.2.isLabel).map Prod.fst ++ (w.filter fun p => p.2.isLabel).map Prod.fst ++
      (post.filter fun p => p.2.isLabel).map Prod.fst := by
  simp [labels, h.listing_eq]

theorem Holds.fixtures_eq (h : c.Holds (pre ++ w ++ post)) :
    c.fixtures = (pre.filter fun p => p.2.isFixture) ++ (w.filter fun p => p.2.isFixture) ++
      post.filter fun p => p.2.isFixture := by
  simp [fixtures, h.listing_eq]

variable {id : InsnId}

theorem WellLinked.mem_listing_of_state? {x : Insn} (h : c.WellLinked)
    (hx : c.state? id = some (x, false)) : (id, x) ∈ c.listing := by
  obtain ⟨pre, post, hheld⟩ := h.exists_split hx
  simp [hheld.listing_eq]

theorem state?_of_remove (h : c.remove id = .ok d) : ∃ x, c.state? id = some (x, false) := by
  rw [remove] at h
  split at h
  · simp at h
  · next n hn =>
    split at h
    · simp at h
    · next hlive => exact ⟨n.insn, by simpa [state?, hn] using hlive⟩

theorem state?_of_set {y : Insn} (h : c.set id y = .ok d) : ∃ x removed, c.state? id = some (x, removed) := by
  rw [set] at h
  split at h
  · next n hn => exact ⟨n.insn, n.removed, by simp [state?, hn]⟩
  · simp at h

/-- An instruction that was removed can be changed without any effect. -/
theorem Holds.set_removed {ls : List (InsnId × Insn)} {x y : Insn} (h : c.Holds ls)
    (hx : c.state? id = some (x, true)) (hd : c.set id y = .ok d) : d.Holds ls := by
  obtain ⟨n, hn, hstate⟩ := Option.map_eq_some_iff.mp hx
  obtain ⟨-, hremoved⟩ := Prod.mk.inj hstate
  have hdead : id ∉ ls.map Prod.fst := by
    rw [← h.isLive_iff, isLive_of_state? hx]
    simp
  simp only [Code.set, hn, Except.ok.injEq] at hd
  subst hd
  refine ⟨by simpa using h.first, by simpa using h.last, ?_, h.nodup, ?_, by simpa using h.live⟩
  · refine h.linked.congr fun i hi => ?_
    have hne : i ≠ id := by
      rintro rfl
      exact hdead hi
    rw [node?_modify, if_neg hne]
  · intro i k hk hlive
    rw [node?_modify] at hk
    split at hk
    · next heq =>
      obtain rfl := heq
      rw [hn] at hk
      rw [← Option.some.inj hk, hremoved] at hlive
      simp at hlive
    · exact h.complete i k hk hlive

/-- The code `d` came about from `c` by rewriting, which keeps the properties `P` of instructions. -/
structure Reworks (P : (Insn → Prop) → Prop) (c d : Code) : Prop where
  linked : d.WellLinked
  labels : c.labels.Sublist d.labels
  fixtures : d.fixtures = c.fixtures
  insns : ∀ {Q : Insn → Prop}, P Q → (∀ p ∈ c.listing, Q p.2) → ∀ p ∈ d.listing, Q p.2
  branches : c.BranchesToLabels → d.BranchesToLabels

namespace Reworks

variable {P : (Insn → Prop) → Prop}

theorem refl (h : c.WellLinked) : c.Reworks P c := ⟨h, List.Sublist.refl _, rfl, fun _ hc => hc, id⟩

theorem trans (h : c.Reworks P d) (h' : d.Reworks P e) : c.Reworks P e where
  linked := h'.linked
  labels := h.labels.trans h'.labels
  fixtures := h'.fixtures.trans h.fixtures
  insns := fun hQ hc => h'.insns hQ (h.insns hQ hc)
  branches := fun hc => h'.branches (h.branches hc)

/-- What one context keeps of a code, any does. -/
theorem stable {context : ExpansionContext} (h : c.Reworks context.Admits d) : c.Reworks Insn.Stable d :=
  ⟨h.linked, h.labels, h.fixtures, fun hQ => h.insns (hQ.admits context), h.branches⟩

end Reworks

/-- What may take the place of lines in rewriting: the lines may be taken out, the new instructions are like the old
ones or like those of `base`, and new branches go where old ones went or to a new label. -/
structure Exchange (context : ExpansionContext) (base w out : List (InsnId × Insn)) : Prop where
  loose : ∀ p ∈ w, p.2.Loose
  fixtures : ∀ p ∈ out, p.2.isFixture = false
  insns : ∀ {Q : Insn → Prop}, context.Admits Q → (∀ p ∈ base, Q p.2) → (∀ p ∈ w, Q p.2) → ∀ p ∈ out, Q p.2
  targets : ∀ p ∈ out, ∀ t ∈ p.2.targets, (t, .label) ∈ out ∨ ∃ q ∈ w, t ∈ q.2.targets

/-- Lines can give way to added instructions and to instructions that are among them. -/
theorem Exchange.of_added {context : ExpansionContext} (base : List (InsnId × Insn)) (hw : ∀ x ∈ w.map Prod.snd, x.Loose)
    (hout : ∀ x ∈ out.map Prod.snd, context.Added x ∧ (∀ t ∈ x.targets, (t, .label) ∈ out ∨ ∃ q ∈ w, t ∈ q.2.targets) ∨
      x ∈ w.map Prod.snd) : Exchange context base w out where
  loose := fun p hp => hw p.2 (List.mem_map_of_mem hp)
  fixtures := by
    intro p hp
    rcases hout p.2 (List.mem_map_of_mem hp) with ⟨hadded, -⟩ | hold
    · exact hadded.not_fixture
    · exact (hw p.2 hold).2
  insns := by
    intro Q hQ _ hall p hp
    rcases hout p.2 (List.mem_map_of_mem hp) with ⟨hadded, -⟩ | hold
    · exact hQ.added hadded
    · obtain ⟨q, hq, heq⟩ := List.mem_map.mp hold
      exact heq ▸ hall q hq
  targets := by
    intro p hp t ht
    rcases hout p.2 (List.mem_map_of_mem hp) with ⟨-, htargets⟩ | hold
    · exact htargets t ht
    · obtain ⟨q, hq, heq⟩ := List.mem_map.mp hold
      exact .inr ⟨q, hq, heq ▸ ht⟩

/-- Lines of a reworked code give way to others. -/
theorem Reworks.exchange {context : ExpansionContext} (h : c.Reworks context.Admits d)
    (hx : Exchange context c.listing w out) (hd : d.Holds (pre ++ w ++ post)) (he : e.Holds (pre ++ out ++ post)) :
    c.Reworks context.Admits e where
  linked := he.wellLinked
  labels := by
    have hw : w.filter (fun p => p.2.isLabel) = [] := by
      simpa using fun a b hp => (hx.loose (a, b) hp).1
    refine h.labels.trans ?_
    rw [hd.labels_eq, he.labels_eq, hw]
    simp only [List.map_nil, List.append_nil, List.append_assoc]
    exact (List.Sublist.refl _).append (List.sublist_append_right _ _)
  fixtures := by
    have hw : w.filter (fun p => p.2.isFixture) = [] := by
      simpa using fun a b hp => (hx.loose (a, b) hp).2
    have hout : out.filter (fun p => p.2.isFixture) = [] := by simpa using hx.fixtures
    rw [← h.fixtures, hd.fixtures_eq, he.fixtures_eq, hw, hout]
  insns := by
    intro Q hQ hbase
    have hall := h.insns hQ hbase
    rw [hd.listing_eq] at hall
    rw [he.listing_eq]
    have hout := hx.insns hQ hbase fun p hp => hall p (by simp [hp])
    intro p hp
    simp only [List.mem_append] at hp
    rcases hp with (hp | hp) | hp
    · exact hall p (by simp [hp])
    · exact hout p hp
    · exact hall p (by simp [hp])
  branches := by
    intro hbase
    have hall := h.branches hbase
    have hkept : ∀ t, (t, .label) ∈ d.listing → (t, .label) ∈ e.listing := by
      intro t ht
      rw [hd.listing_eq] at ht
      rw [he.listing_eq]
      simp only [List.mem_append] at ht ⊢
      rcases ht with (ht | ht) | ht
      · simp [ht]
      · exact absurd (hx.loose _ ht).1 (by simp [Insn.isLabel])
      · simp [ht]
    have hgoes : ∀ q ∈ pre ++ w ++ post, ∀ t ∈ q.2.targets, (t, .label) ∈ e.listing := by
      intro q hq t ht
      refine hkept t (hall q.2 ?_ t ht)
      rw [hd.listing_eq]
      exact List.mem_map_of_mem hq
    intro x hmem t ht
    rw [he.listing_eq] at hmem
    obtain ⟨p, hp, rfl⟩ := List.mem_map.mp hmem
    simp only [List.mem_append] at hp
    rcases hp with (hp | hp) | hp
    · exact hgoes p (by simp [hp]) t ht
    · rcases hx.targets p hp t ht with hlabel | ⟨q, hq, ht⟩
      · rw [he.listing_eq]
        simp [hlabel]
      · exact hgoes q (by simp [hq]) t ht
    · exact hgoes p (by simp [hp]) t ht

end Code

/-! ## Moving slots -/

/-- Moving the slots reworks a code. -/
theorem SlotMap.apply_reworks {m : SlotMap} {c : Code} (h : c.WellLinked) (hok : (m.apply c).refused = none) :
    c.Reworks Insn.Stable (m.apply c).code := by
  obtain ⟨hheld, -, -⟩ := m.apply_holds h hok
  have hlabels : (m.apply c).code.labels = c.labels := by
    simp [Code.labels, hheld.listing_eq, List.filter_map, Function.comp_def, Insn.isLabel_mapInsn]
  refine ⟨hheld.wellLinked, by rw [hlabels], ?_, ?_, ?_⟩
  · rw [Code.fixtures, hheld.listing_eq, List.filter_map, Code.fixtures]
    simp only [Function.comp_def, Insn.isFixture_mapInsn]
    conv_rhs => rw [← List.map_id (c.listing.filter fun p => p.2.isFixture)]
    refine List.map_congr_left fun p hp => ?_
    rw [Insn.mapInsn_of_isFixture m (List.mem_filter.mp hp).2]
    rfl
  · intro Q hQ hall p hp
    rw [hheld.listing_eq] at hp
    obtain ⟨q, hq, rfl⟩ := List.mem_map.mp hp
    exact hQ.moved m (hall q hq)
  · intro hall x hx t ht
    rw [hheld.listing_eq, List.map_map] at hx
    obtain ⟨q, hq, rfl⟩ := List.mem_map.mp hx
    simp only [Function.comp_apply, Insn.targets_mapInsn] at ht
    have hlabel := hall q.2 (List.mem_map_of_mem hq) t ht
    rw [← Code.mem_labels, hlabels, Code.mem_labels]
    exact hlabel

/-! ## Replacing patterns -/

namespace Pattern

open Code

variable {c : ExpansionContext} {n : Nat} {w out : List (InsnId × Insn)}

/-- What a pattern is replaced by may take its place. -/
theorem Rewrites.exchange (h : Rewrites c n w out) (base : List (InsnId × Insn)) : Exchange c base w out := by
  refine .of_added _ h.loose fun x hx => ?_
  cases Machine.produced_of_rewrites h x hx with
  | kept hmem _ => exact .inr hmem
  | part hop hs axis => exact .inl ⟨.part hop hs axis, by simp [Insn.targets]⟩
  | accessor _ => exact .inl ⟨.accessor _, by simp [Insn.targets, Insn.ofAccessor]⟩
  | add => exact .inl ⟨.plain (by simp), by simp [Insn.targets]⟩
  | sentinel => exact .inl ⟨.sentinel _, by simp [Insn.targets]⟩
  | label => exact .inl ⟨.label, by simp [Insn.targets]⟩
  | @test op t hop hgoal =>
    refine .inl ⟨.jump hop t, ?_⟩
    simp only [Insn.targets, List.mem_singleton, forall_eq]
    refine hgoal.imp_right ?_
    rintro ⟨op', hjump⟩
    obtain ⟨q, hq, heq⟩ := List.mem_map.mp hjump
    exact ⟨q, hq, by simp [heq]⟩

end Pattern

/-- Replacing patterns reworks the code, also if it comes to a pattern that cannot be replaced. -/
theorem PatternRun.scan_reworks (c : ExpansionContext) (fuel : Nat) {i : Nat} {r : PatternRun} (h : r.code.WellLinked) :
    r.code.Reworks c.Admits (scan c fuel i r).code := by
  induction fuel generalizing i r with
  | zero => exact .refl h
  | succ fuel ih =>
    rw [scan]
    cases hnext : Pattern.applyNext c r.code i (r.code.listing.drop i) with
    | error e => exact .refl h
    | ok applied =>
      rcases applied with _ | ⟨j, p, next⟩
      · exact .refl h
      obtain ⟨pre, w, out, post, hlisting, -, -, hr, hheld⟩ := Pattern.applyNext_rewrites h hnext
      rw [Code.WellLinked, hlisting] at h
      exact ((Code.Reworks.refl h.wellLinked).exchange (hr.exchange _) h hheld).trans
        (@ih j { r with code := next, applied := p :: r.applied } hheld.wellLinked)

theorem PatternRun.ofCode_reworks (c : ExpansionContext) {code : Code} (h : code.WellLinked) :
    code.Reworks c.Admits (ofCode c code).code :=
  @scan_reworks c _ 0 ⟨code, [], none⟩ h

/-! ## Converting calls -/

/-- The code `d` came about from `c` by rewriting without new labels. -/
structure Code.Retargets (context : ExpansionContext) (c d : Code) : Prop where
  reworks : c.Reworks context.Admits d
  labels : d.labels = c.labels

namespace Code.Retargets

variable {context : ExpansionContext} {c d e : Code} {pre w out post : List (InsnId × Insn)}

theorem refl (h : c.WellLinked) : c.Retargets context c := ⟨.refl h, rfl⟩

theorem trans (h : c.Retargets context d) (h' : d.Retargets context e) : c.Retargets context e :=
  ⟨h.reworks.trans h'.reworks, h'.labels.trans h.labels⟩

theorem exchange (h : c.Retargets context d) (hx : Exchange context c.listing w out)
    (hout : ∀ p ∈ out, p.2.isLabel = false) (hd : d.Holds (pre ++ w ++ post)) (he : e.Holds (pre ++ out ++ post)) :
    c.Retargets context e where
  reworks := h.reworks.exchange hx hd he
  labels := by
    have hw : w.filter (fun p => p.2.isLabel) = [] := by
      simpa using fun a b hp => (hx.loose (a, b) hp).1
    have hnew : out.filter (fun p => p.2.isLabel) = [] := by simpa using hout
    rw [← h.labels, hd.labels_eq, he.labels_eq, hw, hnew]

/-- What stands in the place of an instruction that may be taken out may be taken out. -/
theorem loose {id : InsnId} {x y : Insn} (h : c.Retargets context d) (hc : c.WellLinked) (hx : (id, x) ∈ c.listing)
    (hloose : x.Loose) (hy : (id, y) ∈ d.listing) : y.Loose := by
  have hsame : (id, y) ∈ c.listing → y = x := fun hy => by
    have hget := hc.get?_eq hy
    rw [hc.get?_eq hx] at hget
    exact (Option.some.inj hget).symm
  constructor
  · by_contra hlabel
    have hlabel : y.isLabel = true := by simpa using hlabel
    obtain rfl := Insn.eq_label_of_isLabel hlabel
    have hmem : id ∈ c.labels := h.labels ▸ Code.mem_labels.mpr hy
    have := hsame (Code.mem_labels.mp hmem)
    exact absurd hloose.1 (by simp [← this, Insn.isLabel])
  · by_contra hfixture
    have hmem : (id, y) ∈ d.fixtures := List.mem_filter.mpr ⟨hy, by simpa using hfixture⟩
    rw [h.reworks.fixtures] at hmem
    have := hsame (List.mem_filter.mp hmem).1
    exact hfixture (this ▸ hloose.2)

end Code.Retargets

namespace ExpansionContext

variable {c : ExpansionContext} {code d : Code} {p id : InsnId} {x : Insn} {part : Option Axis}
  {pre post : List (InsnId × Insn)}

/-- An instruction gives way to added ones. -/
theorem retargets_of_added {out : List (InsnId × Insn)} (hx : x.Loose)
    (hout : ∀ y ∈ out.map Prod.snd, c.Added y ∧ y.targets = [] ∧ y.isLabel = false)
    (hc : code.Holds (pre ++ (p, x) :: post)) (hd : d.Holds (pre ++ out ++ post)) : code.Retargets c d := by
  have hc : code.Holds (pre ++ [(p, x)] ++ post) := by simpa using hc
  refine (Code.Retargets.refl hc.wellLinked).exchange (.of_added _ (by simpa using hx) ?_) ?_ hc hd
  · intro y hy
    obtain ⟨hadded, htargets, -⟩ := hout y hy
    exact .inl ⟨hadded, by simp [htargets]⟩
  · intro q hq
    exact (hout q.2 (List.mem_map_of_mem hq)).2.2

theorem narrow_fits (hx : c.isOperand x = true) (axis : Axis) :
    c.Added (c.narrow x axis) ∧ (c.narrow x axis).targets = [] ∧ (c.narrow x axis).isLabel = false :=
  ⟨added_narrow hx axis, c.targets_narrow x axis, by cases x <;> rfl⟩

theorem keepOne_fits (axis : Axis) :
    ∀ op ∈ (keepOne axis).1 ++ [(keepOne axis).2], op ∈ [.iadd, .pop, .dup, .swap] := by
  cases axis <;> decide

theorem keepReceiver_fits (e : Entry) (axis : Axis) :
    ∀ y ∈ keepReceiver e axis, c.Added y ∧ y.targets = [] ∧ y.isLabel = false := by
  intro y hy
  simp only [keepReceiver, List.mem_cons, List.not_mem_nil, or_false] at hy
  rcases hy with rfl | rfl | rfl
  · exact ⟨.plain (by simp), rfl, rfl⟩
  · exact ⟨.accessor _, rfl, rfl⟩
  · exact ⟨.plain (by simp), rfl, rfl⟩

/-- Changing a producer that is there reworks the code. -/
theorem convertProducer_retargets (h : code.Holds (pre ++ (p, x) :: post))
    (hd : c.convertProducer part code p = .ok d) : code.Retargets c d := by
  have hget : code.get? p = some x := h.get?_eq (by simp)
  by_cases hoperand : c.isOperand x = true
  · rw [convertProducer_operand hget hoperand] at hd
    cases part with
    | some axis =>
      obtain ⟨hheld, -⟩ := set_holds h (Outcome.ofFault_ok.mp hd)
      exact retargets_of_added (loose_of_isOperand hoperand) (by simpa using narrow_fits hoperand axis) h hheld
    | none =>
      obtain ⟨hheld, -⟩ := becomes_holds h hd
      exact retargets_of_added (loose_of_isOperand hoperand) (by simp [narrow_fits hoperand]) h hheld
  · cases he : c.listed? x with
    | none =>
      have hunable : c.isSplittable x = false := by simp [isSplittable, hoperand, he]
      simp [convertProducer_unable hget hunable] at hd
    | some e =>
      rw [convertProducer_listed hget he] at hd
      have hloose := loose_of_listed he
      by_cases hpack : e.pack = true
      · rw [if_pos hpack] at hd
        cases part with
        | some axis =>
          obtain ⟨hheld, -⟩ := becomes_holds h hd
          refine retargets_of_added hloose ?_ h hheld
          intro y hy
          have hy : ∃ op ∈ (keepOne axis).1 ++ [(keepOne axis).2], y = .plain op := by
            simpa [eq_comm] using hy
          obtain ⟨op, hop, rfl⟩ := hy
          exact ⟨.plain (keepOne_fits axis op hop), rfl, rfl⟩
        | none =>
          obtain ⟨hheld, -⟩ := remove_holds h hloose.1 (Outcome.ofExcept_ok.mp hd)
          exact retargets_of_added hloose (by simp) h hheld
      · rw [if_neg hpack] at hd
        cases part with
        | some axis =>
          obtain ⟨hheld, -⟩ := set_holds h (Outcome.ofFault_ok.mp hd)
          exact retargets_of_added hloose (by simpa using ⟨.accessor _, rfl, rfl⟩) h hheld
        | none =>
          obtain ⟨hheld, -⟩ := becomes_holds h hd
          refine retargets_of_added hloose ?_ h hheld
          intro y hy
          simp only [List.map_append, Code.map_snd_numbered, List.map_cons, List.map_nil, List.mem_append,
            List.mem_singleton] at hy
          rcases hy with (hy | hy) | rfl
          · exact keepReceiver_fits e _ y hy
          · exact keepReceiver_fits e _ y hy
          · exact ⟨.accessor _, rfl, rfl⟩

theorem remainder_of_isPackCall (h : c.isPackCall x = true) : c.remainder x = x := by
  obtain ⟨e, he, hpack⟩ := (Option.any_eq_true _ _).mp h
  simp [remainder, not_isOperand_of_listed he, he, hpack]

/-- Changing producers one after the other reworks the code. A producer that is met again may have been removed only if
it packs, and then it cannot be changed. -/
theorem convertProducers_retargets (hcode : code.WellLinked) {ids : List Nat} (hpart : part ≠ none → ids.Nodup)
    (hids : ∀ p ∈ ids, ∃ x removed, code.state? p = some (x, removed) ∧
      (removed = true → part = none ∧ c.isPackCall x = true))
    (hd : ids.foldlM (fun code (p : Nat) => c.convertProducer part code p) code = .ok d) : code.Retargets c d := by
  induction ids generalizing code with
  | nil =>
    obtain rfl : code = d := by simpa [pure, Except.pure] using hd
    exact .refl hcode
  | cons p ids ih =>
    rw [List.foldlM_cons] at hd
    obtain ⟨d₁, hd₁, hd⟩ := except_bind_ok.mp hd
    obtain ⟨x, removed, hx, hremoved⟩ := hids p (by simp)
    cases removed with
    | true =>
      obtain ⟨rfl, hpack⟩ := hremoved rfl
      simp [convertProducer_removed hx hpack] at hd₁
    | false =>
      have hable : c.isSplittable x = true := by
        by_contra hunable
        simp [convertProducer_unable (Code.get?_of_state? hx) (by simpa using hunable)] at hd₁
      obtain ⟨d', hd', hedits, hleft⟩ := convertProducer_ok part hx hable
      obtain rfl := Except.ok.inj (hd'.symm.trans hd₁)
      obtain ⟨pre, post, hheld⟩ := hcode.exists_split hx
      have hfirst := convertProducer_retargets hheld hd₁
      refine hfirst.trans (ih hfirst.reworks.linked (fun hne => (hpart hne).of_cons) ?_ hd)
      intro q hq
      obtain ⟨y, removed, hy, hremoved⟩ := hids q (by simp [hq])
      by_cases hpq : q = p
      · subst hpq
        -- a producer is met again only if all its parts were taken
        have hnone : part = none := by
          by_contra hne
          exact (List.nodup_cons.mp (hpart hne)).1 hq
        exact ⟨_, _, hleft hnone, fun hpack => ⟨hnone, by rwa [remainder_of_isPackCall hpack]⟩⟩
      · refine ⟨y, removed, ?_, hremoved⟩
        rw [hedits.others q (by exact_mod_cast hpq) (Code.lt_size_of_state? hy)]
        exact hy

variable {a : Analysis} {expanded : IndexSet} {op : Opcode} {m : Member} {itf : Bool} {f : Frame}

/-- Taking an axis out of a coordinate reworks the code. -/
theorem convertUnpack_retargets (hcode : code.WellLinked) (hid : code.state? id = some (.call op m itf, false))
    {axis : Axis} (hd : c.convertUnpack a expanded code id f axis = .ok (some d)) : code.Retargets c d := by
  rw [convertUnpack] at hd
  split at hd
  · simp at hd
  · next v vs hstack =>
    split at hd
    · simp at hd
    · obtain ⟨⟨⟩, hchecked, hd⟩ := except_bind_ok.mp hd
      obtain ⟨d₁, hd₁, hd⟩ := except_bind_ok.mp hd
      obtain ⟨d₂, hd₂, hd⟩ := except_bind_ok.mp hd
      obtain rfl : d₂ = d := by simpa [pure, Except.pure] using hd
      have hfirst : code.Retargets c d₁ := by
        refine convertProducers_retargets hcode (fun _ => v.prod.toList_nodup) ?_ hd₁
        intro p hp
        obtain ⟨x, hx, -⟩ := checked_of_checkProducers (Outcome.ofExcept_ok.mp hchecked) p hp
        exact ⟨x, false, hx, by simp⟩
      obtain ⟨y, hy⟩ := Code.state?_of_remove (Outcome.ofExcept_ok.mp hd₂)
      obtain ⟨pre, post, hheld⟩ := hfirst.reworks.linked.exists_split hy
      have hloose : y.Loose := hfirst.loose hcode (Code.WellLinked.mem_listing_of_state? hcode hid)
        (Insn.loose_call op m itf) (by simp [hheld.listing_eq])
      obtain ⟨hheld', -⟩ := remove_holds hheld hloose.1 (Outcome.ofExcept_ok.mp hd₂)
      exact hfirst.trans (retargets_of_added hloose (by simp) hheld hheld')

/-- Converting a call reworks the code. -/
theorem convertCall_retargets (hcode : code.WellLinked) (hid : code.state? id = some (.call op m itf, false))
    (hd : c.convertCall a expanded code id op m itf f = .ok (some d)) : code.Retargets c d := by
  rcases @convertCall_cases c code id a expanded op m itf f with ⟨axis, -, heq⟩ | ⟨packed, target, h⟩ | heq | ⟨e, heq⟩
  · exact convertUnpack_retargets hcode hid (heq ▸ hd)
  · rw [convertCall_of_accepts h] at hd
    obtain ⟨d₁, hd₁, hd⟩ := except_bind_ok.mp hd
    obtain ⟨d₂, hd₂, hd⟩ := except_bind_ok.mp hd
    obtain rfl : d₂ = d := by simpa using hd
    have hfirst : code.Retargets c d₁ := by
      refine convertProducers_retargets hcode (fun hne => absurd rfl hne) ?_ hd₁
      intro p hp
      obtain ⟨x, hx, -⟩ := h.checked p hp
      exact ⟨x, false, hx, by simp⟩
    have hline := Code.WellLinked.mem_listing_of_state? hcode hid
    obtain ⟨y, removed, hy⟩ := Code.state?_of_set (Outcome.ofFault_ok.mp hd₂)
    cases removed with
    | true =>
      have hheld := hfirst.reworks.linked.set_removed hy (Outcome.ofFault_ok.mp hd₂)
      refine @Code.Retargets.exchange _ _ _ _ d₁.listing [] [] [] hfirst ⟨?_, ?_, ?_, ?_⟩ ?_ ?_ ?_
      all_goals simp
      · exact hfirst.reworks.linked
      · exact hheld
    | false =>
      obtain ⟨pre, post, hheld⟩ := hfirst.reworks.linked.exists_split hy
      obtain ⟨hheld', -⟩ := set_holds hheld (Outcome.ofFault_ok.mp hd₂)
      have hheld : d₁.Holds (pre ++ [(id, y)] ++ post) := by simpa using hheld
      have hloose : y.Loose := hfirst.loose hcode hline (Insn.loose_call op m itf) (by simp [hheld.listing_eq])
      refine hfirst.exchange ⟨by simpa using hloose, by simp [Insn.isFixture], ?_, by simp [Insn.targets]⟩
        (by simp [Insn.isLabel]) hheld hheld'
      intro Q hQ hbase _
      simpa using hQ.redirected target (hbase _ hline)
  · simp [heq] at hd
  · simp [heq] at hd

end ExpansionContext

/-- Converting calls reworks the code, also if it comes to a call that cannot be converted. -/
theorem CallRun.convertAll_retargets (c : ExpansionContext) (a : Analysis) (expanded : IndexSet)
    (ls : List ((InsnId × Insn) × Frame)) {r : CallRun} (h : r.code.WellLinked) :
    r.code.Retargets c (convertAll c a expanded ls r).code := by
  induction ls generalizing r with
  | nil => exact .refl h
  | cons line ls ih =>
    rw [convertAll_cons]
    cases hline : r.convertLine c a expanded line with
    | error e => exact .refl h
    | ok r' =>
      have hstep : r.code.Retargets c r'.code := by
        rw [convertLine] at hline
        split at hline
        · next op m itf hcall =>
          split at hcall
          · next hlive =>
            have hid := Code.state?_of_isLive hlive hcall
            split at hline
            · simp at hline
            · exact Except.ok.inj hline ▸ .refl h
            · next code hconvert =>
              exact Except.ok.inj hline ▸ ExpansionContext.convertCall_retargets h hid hconvert
          · simp at hcall
        · exact Except.ok.inj hline ▸ .refl h
      exact hstep.trans (ih hstep.reworks.linked)

theorem CallRun.ofCode_reworks (c : ExpansionContext) (a : Analysis) (expanded : IndexSet) {code : Code}
    (h : code.WellLinked) : code.Reworks c.Admits (ofCode c a expanded code).code :=
  (@convertAll_retargets c a expanded a.reachable ⟨code, 0, none⟩ h).reworks

/-! ## Methods -/

namespace Method

/-- What the code, the handlers and the variables of a method refer to. -/
def Refers (m : Method) (q : InsnId) : Prop :=
  CoordSplit.Refers m.handlers m.code.listing q ∨ ∃ l ∈ m.locals, q = l.start ∨ q = l.stop

/-- Everything that the method refers to is a label of its code. -/
def Anchored (m : Method) : Prop := ∀ q, m.Refers q → (q, .label) ∈ m.code.listing

/-- What it takes to refer to labels only. -/
theorem anchored_iff {m : Method} : m.Anchored ↔
    (∀ p ∈ m.code.listing, ∀ t ∈ p.2.targets, t ∈ m.code.labels) ∧
      (∀ l ∈ m.locals, l.start ∈ m.code.labels ∧ l.stop ∈ m.code.labels) ∧
      ∀ h ∈ m.handlers, h.start ∈ m.code.labels ∧ h.stop ∈ m.code.labels ∧ h.handler ∈ m.code.labels := by
  simp only [Code.mem_labels]
  constructor
  · intro hm
    refine ⟨fun p hp t ht => hm t (.inl (.inl ⟨p, hp, ht⟩)), fun l hl => ⟨?_, ?_⟩, fun h hh => ⟨?_, ?_, ?_⟩⟩
    · exact hm _ (.inr ⟨l, hl, .inl rfl⟩)
    · exact hm _ (.inr ⟨l, hl, .inr rfl⟩)
    · exact hm _ (.inl (.inr ⟨h, hh, .inl rfl⟩))
    · exact hm _ (.inl (.inr ⟨h, hh, .inr (.inl rfl)⟩))
    · exact hm _ (.inl (.inr ⟨h, hh, .inr (.inr rfl)⟩))
  · rintro ⟨hcode, hlocals, hhandlers⟩ q ((⟨p, hp, hq⟩ | ⟨h, hh, rfl | rfl | rfl⟩) | ⟨l, hl, rfl | rfl⟩)
    · exact hcode p hp q hq
    · exact (hhandlers h hh).1
    · exact (hhandlers h hh).2.1
    · exact (hhandlers h hh).2.2
    · exact (hlocals l hl).1
    · exact (hlocals l hl).2

/-- The method `new` came about from `m` by rewriting its code, and refers to what `m` refers to. -/
structure Reworks (m new : Method) : Prop where
  code : m.code.Reworks Insn.Stable new.code
  handlers : new.handlers = m.handlers
  locals : ∀ l ∈ new.locals, ∃ k ∈ m.locals, l.start = k.start ∧ l.stop = k.stop

variable {cat : Catalog} {a : Analysis} {slots : IndexSet} {owner suffix : Text} {m new : Method}

theorem Reworks.anchored (h : m.Reworks new) (hm : m.Anchored) : new.Anchored := by
  have hkept : ∀ q, m.Refers q → (q, .label) ∈ new.code.listing := fun q hq =>
    Code.mem_labels.mp (h.code.labels.subset (Code.mem_labels.mpr (hm q hq)))
  have hbranches : m.code.BranchesToLabels := by
    intro x hx t ht
    obtain ⟨p, hp, rfl⟩ := List.mem_map.mp hx
    exact hm t (.inl (.inl ⟨p, hp, ht⟩))
  rintro q ((⟨p, hp, hq⟩ | hq) | ⟨l, hl, hq⟩)
  · exact h.code.branches hbranches p.2 (List.mem_map_of_mem hp) q hq
  · exact hkept q (.inl (.inr (h.handlers ▸ hq)))
  · obtain ⟨k, hk, hstart, hstop⟩ := h.locals l hl
    exact hkept q (.inr ⟨k, hk, by rwa [← hstart, ← hstop]⟩)

/-- A method whose code alone is rewritten. -/
theorem Reworks.of_code {code : Code} (h : m.code.Reworks Insn.Stable code) : m.Reworks { m with code := code } :=
  ⟨h, rfl, fun l hl => ⟨l, hl, rfl, rfl⟩⟩

theorem signed_locals (s : SlotMap) (suffix desc : Text) :
    ∀ l ∈ (m.signed s suffix desc).locals, ∃ k ∈ m.locals, l.start = k.start ∧ l.stop = k.stop := by
  intro l hl
  obtain ⟨k, hk, hl⟩ := List.mem_flatMap.mp hl
  refine ⟨k, hk, ?_⟩
  rw [LocalVar.expand] at hl
  split at hl
  · obtain ⟨axis, -, rfl⟩ := List.mem_map.mp hl
    exact ⟨rfl, rfl⟩
  · rw [List.mem_singleton.mp hl]
    exact ⟨rfl, rfl⟩

/-- A method with a new signature has the code and the bounds that it had. -/
theorem withSignature_reworks {s : SlotMap} (hcode : m.code.WellLinked) (h : m.withSignature s suffix = .ok new) :
    m.Reworks new := by
  rw [withSignature_eq] at h
  obtain ⟨desc, -, h⟩ := except_bind_ok.mp h
  split at h
  · simp at h
  · rw [← Except.ok.inj h]
    exact ⟨.refl hcode, rfl, m.signed_locals s suffix desc⟩

/-- The code of a rewritten method was reworked. -/
theorem rewrite_reworks {r : Rewriting} (hcode : m.code.WellLinked) (h : m.rewrite cat a slots = .ok r) :
    m.code.Reworks Insn.Stable r.calls.code := by
  obtain ⟨hmoved, hpatterns, -, hcalls, -, -⟩ := rewrite_ok h
  have h₁ := SlotMap.apply_reworks hcode hmoved
  have h₂ : m.code.Reworks Insn.Stable r.patterns.code := by
    rw [hpatterns]
    exact h₁.trans (PatternRun.ofCode_reworks _ h₁.linked).stable
  rw [hcalls]
  exact h₂.trans (CallRun.ofCode_reworks _ a slots h₂.linked).stable

/-- A transformed method came about by rewriting. -/
theorem transform_reworks {t : Transformed} (hcode : m.code.WellLinked) (h : m.transform cat owner suffix = .ok t)
    (hnew : t.method = some new) : m.Reworks new := by
  obtain ⟨a, e, r, -, -, hr, -, hsigned⟩ := transformSteps_some (transform_ok.mp h) hnew
  have hcalls := rewrite_reworks hcode hr
  have hsignature := withSignature_reworks (m := { m with code := r.calls.code }) hcalls.linked hsigned
  exact ⟨hcalls.trans hsignature.code, hsignature.handlers, hsignature.locals⟩

end Method

end CoordSplit
