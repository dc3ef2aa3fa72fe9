import CoordSplit.Proofs.Verification

/-!
# Replacing lines of typed code

Lines between labels can be replaced in a typed code if what comes in passes through the new lines as well
(`Typed.replace`). The table keeps what it says about all other lines, and handlers that cover the old lines
cover the new ones.

`Runs` says that what is known passes through some lines one after the other; it is found in a typed code
(`Typed.runs`) and gives the part of a table for lines that are not in the code yet (`Runs.segment`).
-/

set_option autoImplicit false

namespace CoordSplit

/-! ## Straight-line code -/

/-- What is known in `t` passes through the lines one after the other and satisfies `Exit` in the end. On the
way branches go where `Leads` says that they may, and `Safe` holds of the local slots. -/
inductive Runs (R : InsnId → Insn → FrameType → FrameType → Prop) (Leads : InsnId → FrameType → Prop)
    (Safe : LocalKinds → Prop) (Exit : FrameType → Prop) : List (InsnId × Insn) → FrameType → Prop
  | done {t : FrameType} (h : Exit t) : Runs R Leads Safe Exit [] t
  | line {id : InsnId} {x : Insn} {rest : List (InsnId × Insn)} {t u t' : FrameType} (hrefines : t.Refines u)
      (hrule : R id x u t') (hgo : ∀ q ∈ x.targets, Leads q t') (hbefore : Safe u.locals) (hafter : Safe t'.locals)
      (hrest : x.opcode.falls = true → Runs R Leads Safe Exit rest t') : Runs R Leads Safe Exit ((id, x) :: rest) t

/-- What is known in `t` can enter the lines; `Exit` is for when there are none. -/
def TypeTable.Enters (U : TypeTable) (Exit : FrameType → Prop) : List (InsnId × Insn) → FrameType → Prop
  | [], t => Exit t
  | p :: _, t => U.Admits p.1 t

/-- The table is right about some lines that are entered with what is known in `t`. -/
structure Segment (R : InsnId → Insn → FrameType → FrameType → Prop) (Leads : InsnId → FrameType → Prop)
    (Safe : LocalKinds → Prop) (Exit : FrameType → Prop) (ls : List (InsnId × Insn)) (t : FrameType)
    (U : TypeTable) : Prop where
  enters : U.Enters Exit ls t
  line : ∀ a id x b, ls = a ++ (id, x) :: b → ∀ u, U id = some u → ∃ u', R id x u u' ∧
    (∀ q ∈ x.targets, Leads q u') ∧ Safe u.locals ∧ Safe u'.locals ∧
    (x.opcode.falls = true → U.Enters Exit b u')

/-- Some table is right about the lines, and about the branches among them. -/
abbrev Segments (R : InsnId → Insn → FrameType → FrameType → Prop) (Leads : InsnId → FrameType → Prop)
    (Safe : LocalKinds → Prop) (Exit : FrameType → Prop) (ls : List (InsnId × Insn)) (t : FrameType) : Prop :=
  ∃ U : TypeTable, Segment R (fun q u => if q ∈ ls.map Prod.fst then U.Admits q u else Leads q u) Safe Exit ls t U

section

variable {R : InsnId → Insn → FrameType → FrameType → Prop} {Leads : InsnId → FrameType → Prop}
  {Safe : LocalKinds → Prop} {Exit : FrameType → Prop}

/-- To pass two lists of lines is to pass one after the other. -/
theorem Runs.append_iff {a b : List (InsnId × Insn)} {t : FrameType} :
    Runs R Leads Safe Exit (a ++ b) t ↔ Runs R Leads Safe (Runs R Leads Safe Exit b) a t := by
  constructor
  · intro h
    induction a generalizing t with
    | nil => exact .done h
    | cons p a ih =>
      cases h with
      | line hrefines hrule hgo hbefore hafter hrest =>
        exact .line hrefines hrule hgo hbefore hafter fun hfalls => ih (hrest hfalls)
  · intro h
    induction h with
    | done h => exact h
    | line hrefines hrule hgo hbefore hafter _ ih => exact .line hrefines hrule hgo hbefore hafter ih

/-- Lines that can be passed through have a table. -/
theorem Runs.segment {ls : List (InsnId × Insn)} {t : FrameType} (h : Runs R Leads Safe Exit ls t)
    (hnodup : (ls.map Prod.fst).Nodup) : ∃ U, Segment R Leads Safe Exit ls t U := by
  induction h with
  | done h =>
    refine ⟨fun _ => none, h, ?_⟩
    intro a id x b hsplit
    simp at hsplit
  | @line id x rest t u t' hrefines hrule hgo hbefore hafter hrest ih =>
    rw [List.map_cons, List.nodup_cons] at hnodup
    -- the rest has a table of its own, unless it cannot be reached
    have htail : ∃ U : TypeTable, (x.opcode.falls = true → U.Enters Exit rest t') ∧
        ∀ a id x b, rest = a ++ (id, x) :: b → ∀ u, U id = some u → ∃ u', R id x u u' ∧
          (∀ q ∈ x.targets, Leads q u') ∧ Safe u.locals ∧ Safe u'.locals ∧
          (x.opcode.falls = true → U.Enters Exit b u') := by
      by_cases hfalls : x.opcode.falls = true
      · obtain ⟨U, hU⟩ := ih hfalls hnodup.2
        exact ⟨U, fun _ => hU.enters, hU.line⟩
      · exact ⟨fun _ => none, fun hfalls' => absurd hfalls' hfalls, fun _ _ _ _ _ _ hnone => by cases hnone⟩
    obtain ⟨U, hU, hlines⟩ := htail
    have hother : ∀ b, (∃ a, rest = a ++ b) → ∀ v, U.Enters Exit b v →
        TypeTable.Enters (fun i => if i = id then some u else U i) Exit b v := by
      rintro b ⟨a, rfl⟩ v hv
      cases b with
      | nil => exact hv
      | cons p b =>
        obtain ⟨w, hw, href⟩ := hv
        refine ⟨w, ?_, href⟩
        have hne : p.1 ≠ id := by
          rintro rfl
          exact hnodup.1 (by simp)
        show (if p.1 = id then some u else U p.1) = some w
        rw [if_neg hne, hw]
    refine ⟨fun i => if i = id then some u else U i, ⟨u, by simp, hrefines⟩, ?_⟩
    intro a id' x' b hsplit v hv
    cases a with
    | nil =>
      obtain ⟨hp, rfl⟩ := List.cons.inj hsplit
      obtain ⟨rfl, rfl⟩ := Prod.mk.inj hp
      rw [if_pos rfl] at hv
      obtain rfl := Option.some.inj hv
      exact ⟨t', hrule, hgo, hbefore, hafter, fun hfalls => hother rest ⟨[], rfl⟩ _ (hU hfalls)⟩
    | cons p a =>
      obtain ⟨-, hrest'⟩ := List.cons.inj hsplit
      have hne : id' ≠ id := by
        rintro rfl
        exact hnodup.1 (by simp [hrest'])
      rw [if_neg hne] at hv
      obtain ⟨u', hrule', hgo', hbefore', hafter', hfalls'⟩ := hlines a id' x' b hrest' v hv
      refine ⟨u', hrule', hgo', hbefore', hafter', fun hfalls => hother b ⟨a ++ [(id', x')], ?_⟩ _ (hfalls' hfalls)⟩
      simp [hrest']

end

/-! ## Replacement in typed code -/

section

variable {R R' : InsnId → Insn → FrameType → FrameType → Prop} {hs : List Handler} {T : TypeTable}
  {pre w out post : List (InsnId × Insn)}

/-- The handlers that cover everything between two parts of a code catch what is known of the local slots. -/
def TypeTable.Guards (T : TypeTable) (hs : List Handler) (pre post : List (InsnId × Insn)) (L : LocalKinds) : Prop :=
  ∀ h ∈ hs, h.start ∈ pre.map Prod.fst → h.stop ∈ post.map Prod.fst → T.Catches h L

/-- What the table admits to the first of some lines passes through them. -/
theorem Typed.runs (h : Typed R hs (pre ++ w ++ post) T) {t : FrameType} (ht : T.Enters (T.Continues post) w t) :
    Runs R T.Admits (T.Guards hs pre post) (T.Continues post) w t := by
  -- the lines passed already are kept in front of those to come
  have haux : ∀ (done : List (InsnId × Insn)) (t : FrameType), Typed R hs (pre ++ (done ++ w) ++ post) T →
      T.Enters (T.Continues post) w t → Runs R T.Admits (T.Guards hs pre post) (T.Continues post) w t := by
    clear ht h t
    induction w with
    | nil => exact fun _ _ _ ht => .done ht
    | cons p w ih =>
      obtain ⟨id, x⟩ := p
      rintro done t h ⟨u, hu, hrefines⟩
      obtain ⟨t', hrule, htargets, hfalls, hcatch⟩ :=
        h.line (pre ++ done) id x (w ++ post) (by simp) u hu
      have hguards : ∀ h' ∈ hs, h'.start ∈ pre.map Prod.fst → h'.stop ∈ post.map Prod.fst →
          T.Catches h' u.locals ∧ T.Catches h' t'.locals := by
        intro h' hh' hstart hstop
        apply hcatch h' hh'
        · rw [List.map_append]
          exact List.mem_append_left _ (List.mem_append_left _ hstart)
        · rw [List.map_append]
          exact List.mem_append_right _ hstop
      refine .line hrefines hrule htargets (fun h' hh' h₁ h₂ => (hguards h' hh' h₁ h₂).1)
        (fun h' hh' h₁ h₂ => (hguards h' hh' h₁ h₂).2) fun hfall => ?_
      apply ih (done ++ [(id, x)]) t' (by simpa using h)
      obtain ⟨q, rest, hq, hadmits⟩ := hfalls hfall
      cases w with
      | nil => exact ⟨q, rest, hq, hadmits⟩
      | cons p' w =>
        obtain ⟨rfl, -⟩ := List.cons.inj hq
        exact hadmits
  exact haux [] t h ht

/-- A line of a code in three parts lies in one of them. -/
theorem split_cases {α : Type} {pre w post a b : List α} {x : α} (h : pre ++ w ++ post = a ++ x :: b) :
    (∃ c, pre = a ++ x :: c ∧ b = c ++ w ++ post) ∨ (∃ c d, w = c ++ x :: d ∧ a = pre ++ c ∧ b = d ++ post) ∨
      ∃ c, post = c ++ x :: b ∧ a = pre ++ w ++ c := by
  rcases List.append_eq_append_iff.mp h with ⟨c, rfl, hpost⟩ | ⟨c, hfront, hb⟩
  · exact .inr (.inr ⟨c, hpost, rfl⟩)
  · cases c with
    | nil =>
      rw [List.append_nil] at hfront
      exact .inr (.inr ⟨[], hb.symm, by simp [hfront]⟩)
    | cons y c =>
      obtain ⟨rfl, rfl⟩ := List.cons.inj hb
      rcases List.append_eq_append_iff.mp hfront with ⟨d, rfl, hw⟩ | ⟨d, hpre, hw⟩
      · exact .inr (.inl ⟨d, c, hw, rfl, rfl⟩)
      · cases d with
        | nil =>
          rw [List.append_nil] at hpre
          exact .inr (.inl ⟨[], c, hw.symm, by simp [hpre], rfl⟩)
        | cons z d =>
          obtain ⟨rfl, rfl⟩ := List.cons.inj hw
          exact .inl ⟨d, hpre, by simp⟩

/-- The places that a code and its handlers refer to. -/
def Refers (hs : List Handler) (ls : List (InsnId × Insn)) (q : InsnId) : Prop :=
  (∃ p ∈ ls, q ∈ p.2.targets) ∨ ∃ h ∈ hs, q = h.start ∨ q = h.stop ∨ q = h.handler

/-- Some lines give way to others. The ids of a code stay apart, and what stays refers to nothing in between. -/
structure Replacing (hs : List Handler) (pre w out post : List (InsnId × Insn)) : Prop where
  old : ((pre ++ w ++ post).map Prod.fst).Nodup
  new : ((pre ++ out ++ post).map Prod.fst).Nodup
  refs : ∀ q, Refers hs (pre ++ post) q → q ∈ (pre ++ post).map Prod.fst

/-- The table in which the lines `out` stand in place of `w`, where `U` is about them. -/
def TypeTable.splice (T U : TypeTable) (w out : List (InsnId × Insn)) : TypeTable := fun id =>
  if id ∈ out.map Prod.fst then U id else if id ∈ w.map Prod.fst then none else T id

/-- The table `U` is right about the lines `out`, which are entered with what `T` says about the first of `w`. -/
structure TypeTable.Stands (T : TypeTable) (R' : InsnId → Insn → FrameType → FrameType → Prop) (hs : List Handler)
    (pre w out post : List (InsnId × Insn)) (U : TypeTable) : Prop where
  enters : ∀ p rest t, w = p :: rest → T p.1 = some t → U.Enters (T.Continues post) out t
  line : ∀ a id x b, out = a ++ (id, x) :: b → ∀ u, U id = some u → ∃ u', R' id x u u' ∧
    (∀ q ∈ x.targets, if q ∈ out.map Prod.fst then U.Admits q u' else T.Admits q u') ∧
    T.Guards hs pre post u.locals ∧ T.Guards hs pre post u'.locals ∧
    (x.opcode.falls = true → U.Enters (T.Continues post) b u')

/-- What passes through the lines `w` passes through the lines `out` in their place. -/
def TypeTable.PassesAs (T : TypeTable) (R R' : InsnId → Insn → FrameType → FrameType → Prop) (hs : List Handler)
    (pre w out post : List (InsnId × Insn)) : Prop :=
  ∀ t, Runs R T.Admits (T.Guards hs pre post) (T.Continues post) w t →
    Segments R' T.Admits (T.Guards hs pre post) (T.Continues post) out t

/-- If what passes through some lines passes through others as well, these have a table, also if they are not
reached. -/
theorem Typed.exists_stands (h : Typed R hs (pre ++ w ++ post) T) (hout : T.PassesAs R R' hs pre w out post) :
    ∃ U, T.Stands R' hs pre w out post U := by
  have hnever : (∀ p rest t, w = p :: rest → T p.1 ≠ some t) → ∃ U, T.Stands R' hs pre w out post U := by
    intro hnone
    exact ⟨fun _ => none, fun p rest t hw ht => absurd ht (hnone p rest t hw), fun _ _ _ _ _ _ hu => by cases hu⟩
  cases w with
  | nil => exact hnever fun _ _ _ hw => by cases hw
  | cons p₀ w =>
    cases hT : T p₀.1 with
    | none =>
      apply hnever
      rintro p rest t hw
      obtain ⟨rfl, -⟩ := List.cons.inj hw
      simp [hT]
    | some t₀ =>
      obtain ⟨U, hU⟩ := hout t₀ (h.runs ⟨t₀, hT, .refl t₀⟩)
      refine ⟨U, ?_, hU.line⟩
      rintro p rest t hw ht
      obtain ⟨rfl, -⟩ := List.cons.inj hw
      obtain rfl := Option.some.inj (hT.symm.trans ht)
      exact hU.enters

namespace Replacing

variable {U : TypeTable} {q id : InsnId} {x : Insn} {t : FrameType}

variable (hr : Replacing hs pre w out post)

include hr

theorem not_mem_out (hq : q ∈ (pre ++ post).map Prod.fst) :
    q ∉ out.map Prod.fst := by
  have hnew := hr.new
  simp only [List.map_append, List.nodup_append] at hnew
  rw [List.map_append, List.mem_append] at hq
  intro hmem
  rcases hq with hq | hq
  · exact hnew.1.2.2 q hq q hmem rfl
  · exact hnew.2.2 q (List.mem_append_right _ hmem) q hq rfl

theorem symm : Replacing hs pre out w post := ⟨hr.new, hr.old, hr.refs⟩

/-- The table says the same about all lines that stay. -/
theorem splice_eq (hq : q ∈ (pre ++ post).map Prod.fst) :
    T.splice U w out q = T q := by
  rw [TypeTable.splice, if_neg (hr.not_mem_out hq), if_neg (hr.symm.not_mem_out hq)]

theorem admits (hq : q ∈ (pre ++ post).map Prod.fst) (h : T.Admits q t) :
    (T.splice U w out).Admits q t := by
  obtain ⟨u, hu, hrefines⟩ := h
  exact ⟨u, by rw [hr.splice_eq hq, hu], hrefines⟩

theorem catches {h : Handler} (hh : h ∈ hs) {L : LocalKinds} (hL : T.Catches h L) :
    (T.splice U w out).Catches h L :=
  hr.admits (hr.refs _ (.inr ⟨h, hh, .inr (.inr rfl)⟩)) hL

variable {c b : List (InsnId × Insn)}

theorem continues_post (hpost : post = c ++ b) (h : T.Continues b t) : (T.splice U w out).Continues b t := by
  obtain ⟨p, rest, rfl, hp⟩ := h
  exact ⟨p, rest, rfl, hr.admits (by simp [hpost]) hp⟩

/-- What can enter the rest of the new lines goes on there, or behind them. -/
theorem continues_out (hout : out = c ++ b)
    (h : U.Enters (T.Continues post) b t) : (T.splice U w out).Continues (b ++ post) t := by
  cases b with
  | nil => exact hr.continues_post (c := []) rfl h
  | cons p b =>
    obtain ⟨u, hu, hrefines⟩ := h
    have hp : p.1 ∈ out.map Prod.fst := by simp [hout]
    exact ⟨p, b ++ post, rfl, u, by rw [TypeTable.splice, if_pos hp, hu], hrefines⟩

/-- What went on at the first of the old lines goes on at the new ones. -/
theorem continues_front (hne : w ≠ []) (hU : T.Stands R' hs pre w out post U)
    (c : List (InsnId × Insn)) (hc : ∀ p ∈ c, p ∈ pre) (h : T.Continues (c ++ w ++ post) t) :
    (T.splice U w out).Continues (c ++ out ++ post) t := by
  obtain ⟨p, rest, hp, hadmits⟩ := h
  cases c with
  | nil =>
    obtain ⟨p₀, w', rfl⟩ := List.exists_cons_of_ne_nil hne
    obtain ⟨rfl, -⟩ := List.cons.inj hp
    obtain ⟨u, hu, hrefines⟩ := hadmits
    obtain ⟨p, rest', hout, hu'⟩ := hr.continues_out (c := []) rfl (hU.enters p₀ w' u rfl hu)
    exact ⟨p, rest', hout, hu'.of_refines hrefines⟩
  | cons p' c =>
    obtain ⟨rfl, -⟩ := List.cons.inj hp
    have hmem : p'.1 ∈ (pre ++ post).map Prod.fst :=
      List.mem_map_of_mem (List.mem_append_left _ (hc p' List.mem_cons_self))
    exact ⟨p', _, rfl, hr.admits hmem hadmits⟩

/-- The table is right about a line that stays, with `a` in front of it and `b` behind it before, and `a'` and `b'`
after the replacement. -/
theorem line_kept (h : Typed R hs (pre ++ w ++ post) T)
    (hrules : ∀ p ∈ pre ++ post, ∀ t t', R p.1 p.2 t t' → R' p.1 p.2 t t') {a a' b' : List (InsnId × Insn)}
    (hsplit : pre ++ w ++ post = a ++ (id, x) :: b) (hmem : (id, x) ∈ pre ++ post)
    (hnext : ∀ u, T.Continues b u → (T.splice U w out).Continues b' u)
    (hstart : ∀ q ∉ out.map Prod.fst, q ∈ a'.map Prod.fst ++ [id] → q ∈ a.map Prod.fst ++ [id])
    (hstop : ∀ q ∉ out.map Prod.fst, q ∈ b'.map Prod.fst → q ∈ b.map Prod.fst) (ht : T.splice U w out id = some t) :
    ∃ t', R' id x t t' ∧ (∀ q ∈ x.targets, (T.splice U w out).Admits q t') ∧
      (x.opcode.falls = true → (T.splice U w out).Continues b' t') ∧
      ∀ h ∈ hs, h.start ∈ a'.map Prod.fst ++ [id] → h.stop ∈ b'.map Prod.fst →
        (T.splice U w out).Catches h t.locals ∧ (T.splice U w out).Catches h t'.locals := by
  rw [hr.splice_eq (List.mem_map_of_mem (f := Prod.fst) hmem)] at ht
  obtain ⟨t', hrule, htargets, hfalls, hcatch⟩ := h.line a id x b hsplit t ht
  refine ⟨t', hrules (id, x) hmem t t' hrule, ?_, fun hfall => hnext t' (hfalls hfall), ?_⟩
  · intro q hq
    exact hr.admits (hr.refs q (.inl ⟨(id, x), hmem, hq⟩)) (htargets q hq)
  · intro h' hh' hs hp
    have hs' := hstart _ (hr.not_mem_out (hr.refs h'.start (.inr ⟨h', hh', .inl rfl⟩))) hs
    have hp' := hstop _ (hr.not_mem_out (hr.refs h'.stop (.inr ⟨h', hh', .inr (.inl rfl)⟩))) hp
    obtain ⟨hbefore, hafter⟩ := hcatch h' hh' hs' hp'
    exact ⟨hr.catches hh' hbefore, hr.catches hh' hafter⟩

/-- The table is right about a new line. -/
theorem line_new (hU : T.Stands R' hs pre w out post U)
    (houter : ∀ p ∈ out, ∀ q ∈ p.2.targets, q ∈ out.map Prod.fst ∨ q ∈ (pre ++ post).map Prod.fst)
    {d : List (InsnId × Insn)} (hsplit : out = c ++ (id, x) :: d) (ht : T.splice U w out id = some t) :
    ∃ t', R' id x t t' ∧ (∀ q ∈ x.targets, (T.splice U w out).Admits q t') ∧
      (x.opcode.falls = true → (T.splice U w out).Continues (d ++ post) t') ∧
      ∀ h ∈ hs, h.start ∈ (pre ++ c).map Prod.fst ++ [id] → h.stop ∈ (d ++ post).map Prod.fst →
        (T.splice U w out).Catches h t.locals ∧ (T.splice U w out).Catches h t'.locals := by
  have hid : id ∈ out.map Prod.fst := by simp [hsplit]
  rw [TypeTable.splice, if_pos hid] at ht
  obtain ⟨t', hrule, htargets, hbefore, hafter, hfalls⟩ := hU.line c id x d hsplit t ht
  refine ⟨t', hrule, ?_, ?_, ?_⟩
  · intro q hq
    have hgo := htargets q hq
    split at hgo
    · next hmem =>
      obtain ⟨u, hu, hrefines⟩ := hgo
      exact ⟨u, by rw [TypeTable.splice, if_pos hmem, hu], hrefines⟩
    · next hmem =>
      have hkept := (houter (id, x) (by simp [hsplit]) q hq).resolve_left hmem
      exact hr.admits hkept hgo
  · intro hfall
    exact hr.continues_out (c := c ++ [(id, x)]) (by simp [hsplit]) (hfalls hfall)
  · -- a handler that covers one of the new lines covers all of them
    intro h' hh' hstart hstop
    have hstart' : h'.start ∈ pre.map Prod.fst := by
      have hnot := hr.not_mem_out (hr.refs h'.start (.inr ⟨h', hh', .inl rfl⟩))
      simp only [hsplit, List.map_append, List.map_cons, List.mem_append, List.mem_cons, List.not_mem_nil,
        or_false] at hstart hnot ⊢
      tauto
    have hstop' : h'.stop ∈ post.map Prod.fst := by
      have hnot := hr.not_mem_out (hr.refs h'.stop (.inr ⟨h', hh', .inr (.inl rfl)⟩))
      simp only [hsplit, List.map_append, List.map_cons, List.mem_append, List.mem_cons] at hstop hnot ⊢
      tauto
    exact ⟨hr.catches hh' (hbefore h' hh' hstart' hstop'), hr.catches hh' (hafter h' hh' hstart' hstop')⟩

end Replacing

/-- Lines that nothing else refers to may be replaced by others through which the same passes. -/
theorem Typed.replace (h : Typed R hs (pre ++ w ++ post) T) (hne : w ≠ []) (hr : Replacing hs pre w out post)
    (houter : ∀ p ∈ out, ∀ q ∈ p.2.targets, q ∈ out.map Prod.fst ∨ q ∈ (pre ++ post).map Prod.fst)
    (hrules : ∀ p ∈ pre ++ post, ∀ t t', R p.1 p.2 t t' → R' p.1 p.2 t t')
    (hout : T.PassesAs R R' hs pre w out post) :
    ∃ T', Typed R' hs (pre ++ out ++ post) T' ∧
      ∀ t, T.Continues (pre ++ w ++ post) t → T'.Continues (pre ++ out ++ post) t := by
  obtain ⟨U, hU⟩ := h.exists_stands hout
  refine ⟨T.splice U w out, ⟨?_, ?_⟩, fun t ht => hr.continues_front hne hU pre (fun _ hp => hp) ht⟩
  · -- nothing but the lines of the code has an entry
    intro id t ht
    rw [TypeTable.splice] at ht
    split at ht
    · next hid =>
      rw [List.map_append, List.map_append]
      exact List.mem_append_left _ (List.mem_append_right _ hid)
    · split at ht
      · cases ht
      · next hw =>
        have hmem := h.support id t ht
        simp only [List.map_append, List.mem_append] at hmem ⊢
        tauto
  · intro a id x b hsplit t ht
    rcases split_cases hsplit with ⟨c, rfl, rfl⟩ | ⟨c, d, hout', rfl, rfl⟩ | ⟨c, rfl, rfl⟩
    · -- a line before the new ones
      refine hr.line_kept h hrules (a := a) (b := c ++ w ++ post) (by simp) (by simp) ?_ (fun _ _ hq => hq) ?_ ht
      · exact fun u hu => hr.continues_front hne hU c (fun p hp => by simp [hp]) hu
      · intro q hq hstop
        simp only [List.map_append, List.mem_append] at hstop ⊢
        tauto
    · exact hr.line_new hU houter hout' ht
    · -- a line behind the new ones
      refine hr.line_kept h hrules (a := pre ++ w ++ c) (b := b) (by simp) (by simp) ?_ ?_ (fun _ _ hq => hq) ht
      · exact fun u hu => hr.continues_post (c := c ++ [(id, x)]) (by simp) hu
      · intro q hq hstart
        simp only [List.map_append, List.mem_append] at hstart ⊢
        tauto

/-- Everything that a code and its handlers refer to is a label of the code. -/
def Labelled (hs : List Handler) (ls : List (InsnId × Insn)) : Prop := ∀ q, Refers hs ls q → (q, .label) ∈ ls

/-- Lines without labels may be replaced by others that branch to labels, and through which the same passes. -/
theorem Typed.replace_labelled (h : Typed R hs (pre ++ w ++ post) T) (hlabels : Labelled hs (pre ++ w ++ post))
    (hne : w ≠ []) (hw : ∀ p ∈ w, p.2 ≠ .label) (hold : ((pre ++ w ++ post).map Prod.fst).Nodup)
    (hnew : ((pre ++ out ++ post).map Prod.fst).Nodup)
    (houter : ∀ p ∈ out, ∀ q ∈ p.2.targets, (q, .label) ∈ out ∨ (q, .label) ∈ pre ++ w ++ post)
    (hrules : ∀ p ∈ pre ++ post, ∀ t t', R p.1 p.2 t t' → R' p.1 p.2 t t')
    (hout : T.PassesAs R R' hs pre w out post) :
    ∃ T', Typed R' hs (pre ++ out ++ post) T' ∧ Labelled hs (pre ++ out ++ post) ∧
      ∀ t, T.Continues (pre ++ w ++ post) t → T'.Continues (pre ++ out ++ post) t := by
  -- labels are not among the lines that are taken out
  have hkept : ∀ q, (q, .label) ∈ pre ++ w ++ post → (q, .label) ∈ pre ++ post := by
    intro q hq
    simp only [List.mem_append] at hq ⊢
    rcases hq with (hq | hq) | hq
    · exact .inl hq
    · exact absurd rfl (hw _ hq)
    · exact .inr hq
  have hrefs : ∀ q, Refers hs (pre ++ post) q → (q, .label) ∈ pre ++ post := by
    intro q hq
    apply hkept q
    apply hlabels q
    rcases hq with ⟨p, hp, hq⟩ | hq
    · refine .inl ⟨p, ?_, hq⟩
      simp only [List.mem_append] at hp ⊢
      tauto
    · exact .inr hq
  have hids : ∀ q, (q, .label) ∈ pre ++ post → q ∈ (pre ++ post).map Prod.fst := fun q hq =>
    List.mem_map_of_mem (f := Prod.fst) hq
  obtain ⟨T', hT', hcontinues⟩ := h.replace hne ⟨hold, hnew, fun q hq => hids q (hrefs q hq)⟩ (by
    intro p hp q hq
    rcases houter p hp q hq with hq | hq
    · exact .inl (List.mem_map_of_mem (f := Prod.fst) hq)
    · exact .inr (hids q (hkept q hq))) hrules hout
  refine ⟨T', hT', ?_, hcontinues⟩
  have hsub : ∀ q, (q, .label) ∈ pre ++ post → (q, .label) ∈ pre ++ out ++ post := by
    intro q hq
    simp only [List.mem_append] at hq ⊢
    tauto
  rintro q (⟨p, hp, hq⟩ | hq)
  · simp only [List.mem_append] at hp
    rcases hp with (hp | hp) | hp
    · exact hsub q (hrefs q (.inl ⟨p, List.mem_append_left _ hp, hq⟩))
    · rcases houter p hp q hq with hq | hq
      · simp [hq]
      · exact hsub q (hkept q hq)
    · exact hsub q (hrefs q (.inl ⟨p, List.mem_append_right _ hp, hq⟩))
  · exact hsub q (hrefs q (.inr hq))

end

end CoordSplit
