import CoordSplit.Proofs.TransformStages

/-!
# Stack depths

A method has a stack depth iff depths can be given to its positions that fit: the code starts empty, every
handler starts with the exception, and along every branch and every step to the next position the depth
changes as the instruction says (`Method.stackDepth_ok_iff`). It is then the greatest depth that occurs in the least
depths that fit (`Method.exists_of_stackDepth`).

The computation follows each position once (`StackDepth.Runs`). What it knows are the depths given so far; a position
with a known depth is queued or has been followed.
-/

set_option autoImplicit false

namespace CoordSplit

namespace StackDepth

/-- The position has the given depth. -/
def Known (s : State) (p : Nat) (depth : Int) : Prop := s.depths[p]? = some (some depth)

/-- The number of positions without a depth. -/
def unset (s : State) : Nat := s.depths.countP Option.isNone

/-- What reaching positions does to the state: depths among `D` are added, and the new ones are queued. -/
structure Grows (D : Nat → Int → Prop) (s t : State) : Prop where
  size : t.depths.size = s.depths.size
  known : ∀ p k, Known s p k → Known t p k
  jobs : ∀ j ∈ s.jobs, j ∈ t.jobs
  fresh : ∀ p k, Known t p k → Known s p k ∨ ((p, k) ∈ t.jobs ∧ D p k)
  queued : ∀ j ∈ t.jobs, j ∈ s.jobs ∨ Known t j.1 j.2
  work : unset t + t.jobs.length = unset s + s.jobs.length

theorem Grows.refl (D : Nat → Int → Prop) (s : State) : Grows D s s :=
  ⟨rfl, fun _ _ h => h, fun _ h => h, fun _ _ h => .inl h, fun _ h => .inl h, rfl⟩

variable {s t : State}

theorem Grows.mono {D D' : Nat → Int → Prop} (h : Grows D s t) (hD : ∀ p k, D p k → D' p k) : Grows D' s t :=
  ⟨h.size, h.known, h.jobs, fun p k hk => (h.fresh p k hk).imp id fun hnew => ⟨hnew.1, hD p k hnew.2⟩, h.queued, h.work⟩

theorem Grows.trans {D : Nat → Int → Prop} {u : State} (h : Grows D s t) (h' : Grows D t u) : Grows D s u := by
  refine ⟨h'.size.trans h.size, fun p k hk => h'.known p k (h.known p k hk),
    fun j hj => h'.jobs j (h.jobs j hj), ?_, ?_, h'.work.trans h.work⟩
  · intro p k hk
    rcases h'.fresh p k hk with hk | hk
    · exact (h.fresh p k hk).imp id fun hnew => ⟨h'.jobs _ hnew.1, hnew.2⟩
    · exact .inr hk
  · intro j hj
    rcases h'.queued j hj with hj | hj
    · exact (h.queued j hj).imp id (h'.known _ _)
    · exact .inr hj

/-- What is queued has its depth, if what was queued before had it. -/
theorem Grows.known_of_mem {D : Nat → Int → Prop} (h : Grows D s t) (hs : ∀ j ∈ s.jobs, Known s j.1 j.2) :
    ∀ j ∈ t.jobs, Known t j.1 j.2 :=
  fun j hj => (h.queued j hj).elim (fun hj => h.known _ _ (hs j hj)) id

/-- A position without a depth gets one and is queued. -/
theorem grows_set {p : Nat} (depth : Int) (h : s.depths[p]? = some none) :
    Grows (fun q k => q = p ∧ k = depth) s
      ⟨s.depths.setIfInBounds p (some depth), insertSorted (fun a b => a.1 ≤ b.1) (p, depth) s.jobs⟩ ∧
    Known ⟨s.depths.setIfInBounds p (some depth), insertSorted (fun a b => a.1 ≤ b.1) (p, depth) s.jobs⟩
      p depth := by
  obtain ⟨hp, hnone⟩ := Array.getElem?_eq_some_iff.mp h
  have hget : ∀ q, (s.depths.setIfInBounds p (some depth))[q]? =
      if p = q then some (some depth) else s.depths[q]? := by
    intro q
    rw [Array.getElem?_setIfInBounds]
    by_cases hq : p = q
    · subst hq
      simp [hp]
    · simp [hq]
  refine ⟨⟨by simp, ?_, ?_, ?_, ?_, ?_⟩, by simp [Known, hget]⟩
  · intro q k hk
    rw [Known] at hk
    rw [Known, hget, if_neg, hk]
    rintro rfl
    simp [h] at hk
  · intro j hj
    exact (mem_insertSorted _ _ _ _).mpr (.inr hj)
  · intro q k hk
    rw [Known, hget] at hk
    split at hk
    · next hq =>
      subst hq
      obtain rfl := Option.some.inj (Option.some.inj hk)
      exact .inr ⟨(mem_insertSorted _ _ _ _).mpr (.inl rfl), rfl, rfl⟩
    · exact .inl hk
  · intro j hj
    rcases (mem_insertSorted _ _ _ _).mp hj with rfl | hj
    · exact .inr (by simp [Known, hget])
    · exact .inl hj
  · have hpos : 0 < s.depths.countP Option.isNone := by
      rw [Array.countP_pos_iff]
      exact ⟨s.depths[p], Array.getElem_mem hp, by simp [hnone]⟩
    simp only [unset, length_insertSorted]
    rw [Array.setIfInBounds_def, dif_pos hp, Array.countP_set]
    simp only [hnone, Option.isNone_none, if_true, Option.isNone_some, Bool.false_eq_true, if_false]
    omega

/-- A depth that reaches a position is known there. -/
theorem reach_ok {ids : Array InsnId} {id : InsnId} {pos : Option Nat} {depth : Int}
    (h : reach ids id pos depth s = .ok t) :
    Grows (fun q k => pos = some q ∧ k = depth) s t ∧ ∃ p, pos = some p ∧ Known t p depth := by
  cases pos with
  | none => simp [reach] at h
  | some p =>
    simp only [reach] at h
    split at h
    · next _ hnone =>
      obtain rfl := Except.ok.inj h
      obtain ⟨hgrows, hknown⟩ := grows_set depth hnone
      exact ⟨hgrows.mono fun q k hq => ⟨by rw [hq.1], hq.2⟩, p, rfl, hknown⟩
    · next known here hsome _ =>
      split at h
      · next heq =>
        simp only [Except.ok.injEq] at h
        subst h heq
        exact ⟨.refl _ s, p, rfl, hsome⟩
      · simp at h
    · simp at h

/-- A list of positions is reached with the same depth. -/
theorem reachAll_ok {α : Type} {ids : Array InsnId} {id : α → InsnId} {pos : α → Option Nat} {depth : Int} {ts : List α}
    (h : ts.foldlM (fun s a => reach ids (id a) (pos a) depth s) s = .ok t) :
    Grows (fun q k => (∃ a ∈ ts, pos a = some q) ∧ k = depth) s t ∧
      ∀ a ∈ ts, ∃ p, pos a = some p ∧ Known t p depth := by
  induction ts generalizing s with
  | nil =>
    simp only [List.foldlM_nil, pure, Except.pure, Except.ok.injEq] at h
    subst h
    exact ⟨.refl _ s, by simp⟩
  | cons a ts ih =>
    rw [List.foldlM_cons] at h
    obtain ⟨u, hu, h⟩ := except_bind_ok.mp h
    obtain ⟨hgrows, p, hp, hknown⟩ := reach_ok hu
    obtain ⟨hrest, hall⟩ := ih h
    refine ⟨(hgrows.mono ?_).trans (hrest.mono ?_), ?_⟩
    · rintro q k ⟨hq, hk⟩
      exact ⟨⟨a, by simp, hq⟩, hk⟩
    · rintro q k ⟨⟨b, hb, hq⟩, hk⟩
      exact ⟨⟨b, by simp [hb], hq⟩, hk⟩
    exact List.forall_mem_cons.mpr ⟨⟨p, hp, hrest.known p depth hknown⟩, hall⟩

/-- An effect that takes no negative number of words off the stack changes the depth by its difference. -/
theorem after_of_nonneg {e : StackEffect} (h : 0 ≤ e.pop) (depth : Int) : after e depth = depth - e.pop + e.push :=
  if_neg (not_lt.mpr h)

section Following

variable {code : Code} {index : Array Int} {lines : Array (InsnId × Insn)}

/-- The depths that follow from the depth `k` of a position are among the depths `d`. -/
def Follows (code : Code) (index : Array Int) (lines : Array (InsnId × Insn)) (d : Nat → Int → Prop)
    (p : Nat) (k : Int) : Prop :=
  ∀ id x, lines[p]? = some (id, x) → ∃ e, x.effect = .ok e ∧ e.pop ≤ k ∧
    (∀ t ∈ x.targets, ∃ q, position? code index t = some q ∧ d q (after e k)) ∧
    (x.opcode.falls = true → d (p + 1) (after e k))

variable {d : Nat → Option Int} {p : Nat} {k depth : Int} {id : InsnId} {x : Insn} {s t : State}

theorem Follows.mono {d d' : Nat → Int → Prop} (hd : ∀ p k, d p k → d' p k)
    (h : Follows code index lines d p k) : Follows code index lines d' p k := by
  intro id x hx
  obtain ⟨e, he, hpop, htargets, hfalls⟩ := h id x hx
  refine ⟨e, he, hpop, ?_, fun hf => hd _ _ (hfalls hf)⟩
  intro t ht
  obtain ⟨q, hq, hk⟩ := htargets t ht
  exact ⟨q, hq, hd q _ hk⟩

/-- Control can go from position `p` to position `q`. -/
def Leads (code : Code) (index : Array Int) (lines : Array (InsnId × Insn)) (p q : Nat) : Prop :=
  ∃ id x, lines[p]? = some (id, x) ∧
    ((∃ t ∈ x.targets, position? code index t = some q) ∨ (x.opcode.falls = true ∧ q = p + 1))

/-- The instruction at position `p` turns the depth `k` into `j`. -/
def Leaves (lines : Array (InsnId × Insn)) (p : Nat) (k j : Int) : Prop :=
  ∃ id x e, lines[p]? = some (id, x) ∧ x.effect = .ok e ∧ j = after e k

theorem Leaves.unique {i j : Int} (hi : Leaves lines p k i) (hj : Leaves lines p k j) : i = j := by
  obtain ⟨id, x, e, hx, he, rfl⟩ := hi
  obtain ⟨id', x', e', hx', he', rfl⟩ := hj
  obtain ⟨rfl, rfl⟩ := Prod.mk.inj (Option.some.inj (hx.symm.trans hx'))
  rw [Except.ok.inj (he.symm.trans he')]

/-- Depths that follow are those that the instruction leaves where control can go. -/
theorem Follows.of_leads {d : Nat → Int → Prop} {q : Nat} {j : Int} (h : Follows code index lines d p k)
    (hleads : Leads code index lines p q) (hleaves : Leaves lines p k j) : d q j := by
  obtain ⟨id, x, hx, hq⟩ := hleads
  obtain ⟨e, he, -, htargets, hfalls⟩ := h id x hx
  obtain rfl : after e k = j := Leaves.unique ⟨id, x, e, hx, he, rfl⟩ hleaves
  rcases hq with ⟨t, ht, hq⟩ | ⟨hf, rfl⟩
  · obtain ⟨q', hq', hd⟩ := htargets t ht
    obtain rfl := Option.some.inj (hq.symm.trans hq')
    exact hd
  · exact hfalls hf

/-- What is done with a queued position: the state after it, and the depth behind its instruction. -/
def followLine (code : Code) (index : Array Int) (lines : Array (InsnId × Insn)) (p : Nat) (depth : Int)
    (id : InsnId) (x : Insn) (s : State) : Except DepthError (State × Int) :=
  match x.effect with
  | .error cause => .error (.effect id cause)
  | .ok e =>
    if depth < e.pop then .error (.underflow id e.pop depth)
    else
      (x.targets.foldlM (fun s t =>
        reach (lines.map Prod.fst) id (position? code index t) (after e depth) s) s) >>= fun s =>
      if x.opcode.falls then
        if p + 1 = lines.size then .error (.fallsOff id)
        else reach (lines.map Prod.fst) id (some (p + 1)) (after e depth) s >>= fun s =>
          .ok (s, after e depth)
      else .ok (s, after e depth)

/-- The next position is followed. -/
theorem follow_cons {fuel : Nat} {best : Int} {jobs : List (Nat × Int)} {depths : Array (Option Int)}
    (hx : lines[p]? = some (id, x)) :
    follow code index lines (fuel + 1) ⟨depths, (p, depth) :: jobs⟩ best =
      followLine code index lines p depth id x ⟨depths, jobs⟩ >>= fun r =>
        follow code index lines fuel r.1 (max best r.2) := by
  rw [follow]
  simp only [hx, followLine]
  cases x.effect with
  | error cause => rfl
  | ok e =>
    simp only [pure, Except.pure, bind, Except.bind, throw, throwThe, MonadExceptOf.throw]
    split
    · rfl
    · split
      · rfl
      · split
        · split
          · rfl
          · split <;> rfl
        · rfl

/-- A position that was followed knows where it leads to. -/
theorem followLine_ok {d : Int}
    (hx : lines[p]? = some (id, x)) (h : followLine code index lines p depth id x s = .ok (t, d)) :
    Grows (fun q k => Leads code index lines p q ∧ k = d) s t ∧ Follows code index lines (Known t) p depth ∧
      Leaves lines p depth d := by
  rw [followLine] at h
  cases he : x.effect with
  | error cause => simp [he] at h
  | ok e =>
    simp only [he] at h
    split at h
    · simp at h
    · next hpop =>
      obtain ⟨u, hu, h⟩ := except_bind_ok.mp h
      obtain ⟨hgrows, hall⟩ := reachAll_ok hu
      have hbranch : Grows (fun q k => Leads code index lines p q ∧ k = after e depth) s u :=
        hgrows.mono fun q k hq => ⟨⟨id, x, hx, .inl hq.1⟩, hq.2⟩
      have hfollows : ∀ v, (∀ q k, Known u q k → Known v q k) →
          (x.opcode.falls = true → Known v (p + 1) (after e depth)) →
          Follows code index lines (Known v) p depth := by
        intro v hv hfalls id' x' hx'
        rw [hx] at hx'
        obtain ⟨rfl, rfl⟩ := Prod.mk.inj (Option.some.inj hx')
        refine ⟨e, he, by omega, ?_, hfalls⟩
        intro a ha
        obtain ⟨q, hq, hk⟩ := hall a ha
        exact ⟨q, hq, hv q _ hk⟩
      split at h
      · next hfalls =>
        split at h
        · simp at h
        · obtain ⟨v, hv, h⟩ := except_bind_ok.mp h
          obtain ⟨rfl, rfl⟩ := Prod.mk.inj (Except.ok.inj h)
          obtain ⟨hgrows', q, hq, hknown⟩ := reach_ok hv
          obtain rfl := Option.some.inj hq
          refine ⟨hbranch.trans (hgrows'.mono ?_), hfollows v hgrows'.known fun _ => hknown, id, x, e, hx, he, rfl⟩
          rintro q k ⟨hq, hk⟩
          exact ⟨⟨id, x, hx, .inr ⟨hfalls, (Option.some.inj hq).symm⟩⟩, hk⟩
      · next hfalls =>
        obtain ⟨rfl, rfl⟩ := Prod.mk.inj (Except.ok.inj h)
        exact ⟨hbranch, hfollows u (fun _ _ hk => hk) fun hf => absurd hf hfalls, id, x, e, hx, he, rfl⟩

/-- What holds while positions are followed: the queued ones have their depths, and the others with a depth
have been followed. -/
structure Ready (code : Code) (index : Array Int) (lines : Array (InsnId × Insn)) (s : State) : Prop where
  size : s.depths.size = lines.size
  queued : ∀ j ∈ s.jobs, Known s j.1 j.2
  followed : ∀ p k, Known s p k → (p, k) ∈ s.jobs ∨ Follows code index lines (Known s) p k

theorem Known.lt_size (h : Known s p k) : p < s.depths.size :=
  (Array.getElem?_eq_some_iff.mp h).1

/-- Following a queued position keeps this. -/
theorem Ready.followLine {depths : Array (Option Int)} {d : Int} {jobs : List (Nat × Int)}
    (h : Ready code index lines ⟨depths, (p, depth) :: jobs⟩) (hx : lines[p]? = some (id, x))
    (hline : followLine code index lines p depth id x ⟨depths, jobs⟩ = .ok (t, d)) : Ready code index lines t := by
  obtain ⟨hgrows, hfollows, -⟩ := followLine_ok hx hline
  refine ⟨hgrows.size.trans h.size, hgrows.known_of_mem fun j hj => h.queued j (List.mem_cons_of_mem _ hj), ?_⟩
  intro q k hk
  rcases hgrows.fresh q k hk with hk | hk
  · rcases h.followed q k hk with hq | hq
    · rcases List.mem_cons.mp hq with heq | hq
      · obtain ⟨rfl, rfl⟩ := Prod.mk.inj heq
        exact .inr hfollows
      · exact .inl (hgrows.jobs _ hq)
    · exact .inr (hq.mono hgrows.known)
  · exact .inl hk.1

/-- Queued positions are followed one after the other; the greatest depth so far goes along. -/
inductive Runs (code : Code) (index : Array Int) (lines : Array (InsnId × Insn)) (start : State) (base : Int) :
    State → Int → Prop
  | refl : Runs code index lines start base start base
  | step {depths : Array (Option Int)} {p : Nat} {depth best d : Int} {jobs : List (Nat × Int)} {id : InsnId} {x : Insn}
      {t : State} (hruns : Runs code index lines start base ⟨depths, (p, depth) :: jobs⟩ best)
      (hx : lines[p]? = some (id, x)) (hline : followLine code index lines p depth id x ⟨depths, jobs⟩ = .ok (t, d)) :
      Runs code index lines start base t (max best d)

section

variable {start s t : State} {base best n : Int}

variable {p : Nat}

theorem Runs.known (h : Runs code index lines start base t n) {k : Int} (hk : Known start p k) : Known t p k := by
  induction h with
  | refl => exact hk
  | step _ hx hline ih => exact (followLine_ok hx hline).1.known p k ih

theorem Ready.runs (h : Ready code index lines start) (hruns : Runs code index lines start base t n) :
    Ready code index lines t := by
  induction hruns with
  | refl => exact h
  | step _ hx hline ih => exact ih.followLine hx hline

/-- Once nothing is queued, the depths follow from each other. -/
theorem Ready.follows (h : Ready code index lines t) (hjobs : t.jobs = []) {k : Int} (hk : Known t p k) :
    Follows code index lines (Known t) p k := by
  rcases h.followed p k hk with hq | hq
  · simp [hjobs] at hq
  · exact hq

/-- Positions are followed until none is queued. -/
theorem Ready.exists_runs {fuel : Nat} (h : Ready code index lines s) (hfuel : unset s + s.jobs.length ≤ fuel)
    (hruns : Runs code index lines start base s best) (hok : follow code index lines fuel s best = .ok n) :
    ∃ t, Runs code index lines start base t n ∧ t.jobs = [] := by
  induction fuel generalizing s best with
  | zero =>
    obtain rfl := Except.ok.inj hok
    exact ⟨s, hruns, List.length_eq_zero_iff.mp (by omega)⟩
  | succ fuel ih =>
    obtain ⟨depths, jobs⟩ := s
    cases jobs with
    | nil =>
      obtain rfl := Except.ok.inj hok
      exact ⟨_, hruns, rfl⟩
    | cons j jobs =>
      obtain ⟨p, depth⟩ := j
      have hp : p < lines.size := by
        rw [← h.size]
        exact (h.queued (p, depth) (by simp)).lt_size
      obtain ⟨⟨id, x⟩, hx⟩ : ∃ line, lines[p]? = some line := ⟨lines[p], Array.getElem?_eq_getElem hp⟩
      rw [follow_cons hx] at hok
      obtain ⟨⟨t, d⟩, ht, hok⟩ := except_bind_ok.mp hok
      have hwork := (followLine_ok hx ht).1.work
      simp only [List.length_cons, unset] at hfuel hwork ⊢
      exact ih (h.followLine hx ht) (by simp only [unset]; omega) (.step hruns hx ht) hok

/-! ## The greatest depth -/

/-- The depth occurs among the depths `d`: a position has it, or the instruction there leaves it. -/
def Occurs (lines : Array (InsnId × Insn)) (d : Nat → Int → Prop) (j : Int) : Prop :=
  ∃ p k, d p k ∧ (j = k ∨ Leaves lines p k j)

/-- What holds of the greatest depth so far while positions are followed: it is met, and none that occurs is greater,
unless an instruction that is still to be followed leaves it. -/
structure Deep (lines : Array (InsnId × Insn)) (s : State) (best : Int) : Prop where
  met : best = 0 ∨ Occurs lines (Known s) best
  known : ∀ p k, Known s p k → k ≤ best
  left : ∀ p k j, Known s p k → Leaves lines p k j → (p, k) ∈ s.jobs ∨ j ≤ best

theorem Occurs.mono {d d' : Nat → Int → Prop} {j : Int} (h : Occurs lines d j) (hd : ∀ p k, d p k → d' p k) :
    Occurs lines d' j := by
  obtain ⟨p, k, hk, hj⟩ := h
  exact ⟨p, k, hd p k hk, hj⟩

/-- Following a line raises the greatest depth so far to one that is met. -/
theorem Deep.followLine {depths : Array (Option Int)} {depth d : Int} {jobs : List (Nat × Int)}
    {id : InsnId} {x : Insn} (h : Deep lines ⟨depths, (p, depth) :: jobs⟩ best)
    (hknown : Known ⟨depths, (p, depth) :: jobs⟩ p depth) (hx : lines[p]? = some (id, x))
    (hline : followLine code index lines p depth id x ⟨depths, jobs⟩ = .ok (t, d)) : Deep lines t (max best d) := by
  obtain ⟨hgrows, -, hleaves⟩ := followLine_ok hx hline
  refine ⟨?_, ?_, ?_⟩
  · rcases max_choice best d with hmax | hmax <;> rw [hmax]
    · exact h.met.imp_right fun hmet => hmet.mono hgrows.known
    · exact .inr ⟨p, depth, hgrows.known p depth hknown, .inr hleaves⟩
  · intro q k hk
    rcases hgrows.fresh q k hk with hk | ⟨-, -, rfl⟩
    · exact (h.known q k hk).trans (le_max_left _ _)
    · exact le_max_right _ _
  · intro q k j hk hj
    rcases hgrows.fresh q k hk with hk | ⟨hqueued, -⟩
    · rcases h.left q k j hk hj with hq | hle
      · rcases List.mem_cons.mp hq with heq | hq
        · obtain ⟨rfl, rfl⟩ := Prod.mk.inj heq
          rw [hj.unique hleaves]
          exact .inr (le_max_right _ _)
        · exact .inl (hgrows.jobs _ hq)
      · exact .inr (hle.trans (le_max_left _ _))
    · exact .inl hqueued

theorem Deep.runs (h : Deep lines start base) (hready : Ready code index lines start)
    (hruns : Runs code index lines start base t n) : Deep lines t n := by
  induction hruns with
  | refl => exact h
  | step hruns hx hline ih => exact ih.followLine ((hready.runs hruns).queued (_, _) (by simp)) hx hline

/-- Once nothing is queued, the greatest depth so far is the greatest that occurs. -/
theorem Deep.isGreatest (h : Deep lines t n) (hjobs : t.jobs = []) (hn : 0 ≤ n) :
    IsGreatest (insert 0 {j | Occurs lines (Known t) j}) n := by
  refine ⟨h.met, ?_⟩
  rintro j (rfl | ⟨p, k, hk, rfl | hj⟩)
  · exact hn
  · exact h.known p _ hk
  · rcases h.left p k j hk hj with hq | hle
    · simp [hjobs] at hq
    · exact hle

theorem Runs.base_le (h : Runs code index lines start base t n) : base ≤ n := by
  induction h with
  | refl => exact le_refl _
  | step _ _ _ ih => exact ih.trans (le_max_left _ _)

end

/-! ## Depths that fit are found -/

/-- The known depths are among the depths `d`. -/
structure Within (lines : Array (InsnId × Insn)) (d : Nat → Option Int) (s : State) : Prop where
  size : s.depths.size = lines.size
  known : ∀ p k, Known s p k → d p = some k
  queued : ∀ j ∈ s.jobs, Known s j.1 j.2

theorem Within.grows {D : Nat → Int → Prop} (h : Within lines d s) (hgrows : Grows D s t)
    (hD : ∀ p k, D p k → d p = some k) : Within lines d t := by
  refine ⟨hgrows.size.trans h.size, ?_, hgrows.known_of_mem h.queued⟩
  intro p k hk
  rcases hgrows.fresh p k hk with hk | ⟨-, hk⟩
  · exact h.known p k hk
  · exact hD p k hk

/-- What is known stays among depths that follow from each other. -/
theorem Within.runs {start : State} {base n : Int}
    (hd : ∀ p k, d p = some k → Follows code index lines (fun q k => d q = some k) p k) (h : Within lines d start)
    (hruns : Runs code index lines start base t n) : Within lines d t := by
  induction hruns with
  | refl => exact h
  | @step depths p depth _ _ jobs _ _ _ _ hx hline ih =>
    obtain ⟨hgrows, -, hleaves⟩ := followLine_ok hx hline
    have hrest : Within lines d ⟨depths, jobs⟩ :=
      ⟨ih.size, ih.known, fun j hj => ih.queued j (List.mem_cons_of_mem _ hj)⟩
    refine hrest.grows hgrows ?_
    rintro q k ⟨hleads, rfl⟩
    exact (hd p depth (ih.known p depth (ih.queued (p, depth) (by simp)))).of_leads hleads hleaves

/-- Among depths that fit, a position can be reached. -/
theorem Within.exists_reach (h : Within lines d s) (hp : p < lines.size) (hd : d p = some depth) (id : InsnId) :
    ∃ t, reach (lines.map Prod.fst) id (some p) depth s = .ok t ∧ Within lines d t := by
  obtain ⟨t, ht⟩ : ∃ t, reach (lines.map Prod.fst) id (some p) depth s = .ok t := by
    have hid : (lines.map Prod.fst)[p]? = some lines[p].1 := by
      rw [Array.getElem?_map, Array.getElem?_eq_getElem hp]
      rfl
    cases hs : s.depths[p]? with
    | none => exact absurd (Array.getElem?_eq_none_iff.mp hs) (by rw [h.size]; omega)
    | some known =>
      cases known with
      | none =>
        simp only [reach, hs, hid]
        exact ⟨_, rfl⟩
      | some known =>
        obtain rfl : known = depth := Option.some.inj ((h.known p known hs).symm.trans hd)
        exact ⟨s, by simp only [reach, hs, hid, if_true]⟩
  refine ⟨t, ht, h.grows (reach_ok ht).1 ?_⟩
  rintro q k ⟨hq, rfl⟩
  obtain rfl := Option.some.inj hq
  exact hd

theorem Within.exists_reachAll {α : Type} {d : Nat → Option Int} {depth : Int} {id : α → InsnId}
    {pos : α → Option Nat} {ts : List α} {s : State} (h : Within lines d s)
    (hts : ∀ a ∈ ts, ∃ p, pos a = some p ∧ p < lines.size ∧ d p = some depth) :
    ∃ t, ts.foldlM (fun s a => reach (lines.map Prod.fst) (id a) (pos a) depth s) s = .ok t ∧
      Within lines d t := by
  induction ts generalizing s with
  | nil => exact ⟨s, rfl, h⟩
  | cons a ts ih =>
    obtain ⟨p, hp, hlt, hd⟩ := hts a (by simp)
    obtain ⟨t, ht, hwithin⟩ := h.exists_reach hlt hd (id a)
    obtain ⟨u, hu, hwithin'⟩ := ih hwithin fun b hb => hts b (by simp [hb])
    refine ⟨u, ?_, hwithin'⟩
    rw [List.foldlM_cons, hp, ht]
    exact hu

/-- Where depths follow from each other, following them does not fail. -/
theorem Within.follow_ok (hbound : ∀ p k, d p = some k → p < lines.size)
    (hd : ∀ p k, d p = some k → Follows code index lines (fun q k => d q = some k) p k) {fuel : Nat}
    {best : Int} (h : Within lines d s) : ∃ n, follow code index lines fuel s best = .ok n := by
  induction fuel generalizing s best with
  | zero => exact ⟨best, rfl⟩
  | succ fuel ih =>
    obtain ⟨depths, jobs⟩ := s
    cases jobs with
    | nil => exact ⟨best, rfl⟩
    | cons j jobs =>
      obtain ⟨p, depth⟩ := j
      have hk := h.known p depth (h.queued (p, depth) (by simp))
      have hp := hbound p depth hk
      obtain ⟨⟨id, x⟩, hx⟩ : ∃ line, lines[p]? = some line := ⟨lines[p], Array.getElem?_eq_getElem hp⟩
      obtain ⟨e, he, hpop, htargets, hfalls⟩ := hd p depth hk id x hx
      have hrest : Within lines d ⟨depths, jobs⟩ :=
        ⟨h.size, h.known, fun j hj => h.queued j (List.mem_cons_of_mem _ hj)⟩
      obtain ⟨t, ht, hwithin⟩ := @Within.exists_reachAll lines InsnId d (after e depth) (fun _ => id)
        (position? code index) x.targets _ hrest fun a ha => by
          obtain ⟨q, hq, hdq⟩ := htargets a ha
          exact ⟨q, hq, hbound q _ hdq, hdq⟩
      rw [follow_cons hx, followLine, he]
      simp only [if_neg (not_lt.mpr hpop), ht, bind, Except.bind]
      cases hf : x.opcode.falls with
      | false =>
        simp only [Bool.false_eq_true, if_false]
        exact ih hwithin
      | true =>
        have hnext := hbound _ _ (hfalls hf)
        obtain ⟨u, hu, hwithin'⟩ := hwithin.exists_reach hnext (hfalls hf) id
        simp only [if_true, if_neg (show p + 1 ≠ lines.size by omega), hu]
        exact ih hwithin'

end Following

end StackDepth

open StackDepth

/-- Depths of the operand stack before the positions of a method, `none` where control does not come, that
fit its instructions. -/
structure Method.DepthsFit (m : Method) (d : Nat → Option Int) : Prop where
  bound : ∀ p k, d p = some k → p < m.code.listing.toArray.size
  entry : m.code.listing.toArray.isEmpty = false → d 0 = some 0
  handlers : ∀ h ∈ m.handlers, ∃ p, position? m.code m.code.index h.handler = some p ∧ d p = some 1
  follows : ∀ p k, d p = some k →
    Follows m.code m.code.index m.code.listing.toArray (fun q k => d q = some k) p k

theorem Method.stackDepth_eq (m : Method) : m.stackDepth =
    (if m.code.listing.toArray.isEmpty then .ok ⟨Array.replicate m.code.listing.toArray.size none, []⟩
      else reach (m.code.listing.toArray.map Prod.fst) .none (some 0) 0
        ⟨Array.replicate m.code.listing.toArray.size none, []⟩) >>= fun entered =>
    (m.handlers.foldlM (fun s h => reach (m.code.listing.toArray.map Prod.fst) h.handler
      (position? m.code m.code.index h.handler) 1 s) entered) >>= fun s =>
    follow m.code m.code.index m.code.listing.toArray m.code.listing.toArray.size s
      (if m.handlers.isEmpty then 0 else 1) := by
  simp only [Method.stackDepth]
  split <;> rfl

/-- Control comes from outside the code to position `p` with the depth `k`. -/
def Method.Enters (m : Method) (p : Nat) (k : Int) : Prop :=
  (m.code.listing.toArray.isEmpty = false ∧ p = 0 ∧ k = 0) ∨
    ((∃ h ∈ m.handlers, position? m.code m.code.index h.handler = some p) ∧ k = 1)

variable {m : Method}

theorem Method.DepthsFit.of_enters {d : Nat → Option Int} (h : m.DepthsFit d) {p : Nat} {k : Int}
    (henters : m.Enters p k) : d p = some k := by
  rcases henters with ⟨hne, rfl, rfl⟩ | ⟨⟨e, he, hp⟩, rfl⟩
  · exact h.entry hne
  · obtain ⟨q, hq, hd⟩ := h.handlers e he
    obtain rfl := Option.some.inj (hp.symm.trans hq)
    exact hd

/-- Nothing is known about the positions of a method, and none is queued. -/
def Method.unknown (m : Method) : State := ⟨Array.replicate m.code.listing.toArray.size none, []⟩

theorem Method.not_known_unknown (m : Method) (p : Nat) (k : Int) : ¬ Known m.unknown p k := by
  intro hk
  rw [Known, unknown, Array.getElem?_replicate] at hk
  split at hk <;> simp at hk

theorem Method.within_unknown (m : Method) (d : Nat → Option Int) : Within m.code.listing.toArray d m.unknown :=
  ⟨by simp [unknown], fun p k hk => absurd hk (m.not_known_unknown p k), by simp [unknown]⟩

/-- A computation that succeeds first reaches where control comes from outside, and then follows the positions until
none is queued. -/
theorem Method.exists_runs {n : Int} (h : m.stackDepth = .ok n) :
    ∃ s t, Grows m.Enters m.unknown s ∧ (∀ p k, m.Enters p k → Known s p k) ∧
      (∀ e ∈ m.handlers, ∃ p, position? m.code m.code.index e.handler = some p) ∧
      Ready m.code m.code.index m.code.listing.toArray s ∧
      Runs m.code m.code.index m.code.listing.toArray s (if m.handlers.isEmpty then 0 else 1) t n ∧ t.jobs = [] := by
  rw [Method.stackDepth_eq] at h
  obtain ⟨entered, hentered, h⟩ := except_bind_ok.mp h
  obtain ⟨s, hs, h⟩ := except_bind_ok.mp h
  obtain ⟨hgrows, hhandlers⟩ := reachAll_ok hs
  have hentry : Grows m.Enters m.unknown entered ∧ (m.code.listing.toArray.isEmpty = false → Known entered 0 0) := by
    split at hentered
    · next hempty =>
      obtain rfl := Except.ok.inj hentered
      exact ⟨.refl _ _, by simp [hempty]⟩
    · next hne =>
      obtain ⟨hgrows, p, hp, hk⟩ := reach_ok hentered
      obtain rfl := Option.some.inj hp
      refine ⟨hgrows.mono ?_, fun _ => hk⟩
      rintro q k ⟨hq, rfl⟩
      exact .inl ⟨by simpa using hne, (Option.some.inj hq).symm, rfl⟩
  have hall : Grows m.Enters m.unknown s := hentry.1.trans (hgrows.mono fun q k hq => .inr hq)
  -- nothing was known at first, so all that is known by now is queued
  have hready : Ready m.code m.code.index m.code.listing.toArray s := by
    refine ⟨hall.size.trans (by simp [unknown]), hall.known_of_mem (by simp [unknown]), ?_⟩
    intro p k hk
    rcases hall.fresh p k hk with hk | hk
    · exact absurd hk (m.not_known_unknown p k)
    · exact .inl hk.1
  have hwork : unset s + s.jobs.length ≤ m.code.listing.toArray.size := by
    rw [hall.work, unset, unknown, List.length_nil, Nat.add_zero]
    exact Array.countP_le_size.trans (by simp)
  obtain ⟨t, hruns, hjobs⟩ := hready.exists_runs hwork .refl h
  refine ⟨s, t, hall, ?_, ?_, hready, hruns, hjobs⟩
  · rintro p k (⟨hne, rfl, rfl⟩ | ⟨⟨e, he, hp⟩, rfl⟩)
    · exact hgrows.known 0 0 (hentry.2 hne)
    · obtain ⟨q, hq, hk⟩ := hhandlers e he
      obtain rfl := Option.some.inj (hp.symm.trans hq)
      exact hk
  · intro e he
    obtain ⟨p, hp, -⟩ := hhandlers e he
    exact ⟨p, hp⟩

/-- The depth of a method is the greatest one that occurs in the least depths that fit it. -/
theorem Method.exists_of_stackDepth {n : Int} (h : m.stackDepth = .ok n) :
    ∃ d, m.DepthsFit d ∧ (∀ d', m.DepthsFit d' → ∀ p k, d p = some k → d' p = some k) ∧
      IsGreatest (insert 0 {j | Occurs m.code.listing.toArray (fun p k => d p = some k) j}) n := by
  obtain ⟨s, t, hgrows, henters, hhandlers, hready, hruns, hjobs⟩ := exists_runs h
  have hd : (fun p k => (t.depths[p]?).join = some k) = Known t := by
    funext p k
    rw [Option.join_eq_some_iff, Known]
  have hknown : ∀ p k, m.Enters p k → Known t p k := fun p k hk => hruns.known (henters p k hk)
  have hready' := hready.runs hruns
  refine ⟨fun p => (t.depths[p]?).join, ⟨?_, ?_, ?_, ?_⟩, ?_, ?_⟩
  · intro p k hk
    rw [← hready'.size]
    exact Known.lt_size (Option.join_eq_some_iff.mp hk)
  · intro hne
    exact Option.join_eq_some_iff.mpr (hknown 0 0 (.inl ⟨hne, rfl, rfl⟩))
  · intro e he
    obtain ⟨p, hp⟩ := hhandlers e he
    exact ⟨p, hp, Option.join_eq_some_iff.mpr (hknown p 1 (.inr ⟨⟨e, he, hp⟩, rfl⟩))⟩
  · intro p k hk
    rw [hd]
    exact hready'.follows hjobs (Option.join_eq_some_iff.mp hk)
  · intro d' hd' p k hk
    have hwithin := (m.within_unknown d').grows hgrows fun p k hk => hd'.of_enters hk
    exact (hwithin.runs hd'.follows hruns).known p k (Option.join_eq_some_iff.mp hk)
  · rw [hd]
    have hdeep : Deep m.code.listing.toArray s (if m.handlers.isEmpty then 0 else 1) := by
      refine ⟨?_, ?_, ?_⟩
      · cases hempty : m.handlers.isEmpty with
        | true => exact .inl rfl
        | false =>
          obtain ⟨e, he⟩ := List.isEmpty_eq_false_iff_exists_mem.mp hempty
          obtain ⟨p, hp⟩ := hhandlers e he
          exact .inr ⟨p, 1, henters p 1 (.inr ⟨⟨e, he, hp⟩, rfl⟩), .inl rfl⟩
      · intro p k hk
        rcases hgrows.fresh p k hk with hk | ⟨-, ⟨-, -, rfl⟩ | ⟨⟨e, he, -⟩, rfl⟩⟩
        · exact absurd hk (m.not_known_unknown p k)
        · split <;> decide
        · rw [if_neg (by simpa using List.ne_nil_of_mem he)]
      · intro p k j hk _
        rcases hgrows.fresh p k hk with hk | ⟨hqueued, -⟩
        · exact absurd hk (m.not_known_unknown p k)
        · exact .inl hqueued
    refine (hdeep.runs hready hruns).isGreatest hjobs (le_trans ?_ hruns.base_le)
    split <;> decide

/-- The depth of a method is known iff depths fit it. -/
theorem Method.stackDepth_ok_iff (m : Method) : (∃ n, m.stackDepth = .ok n) ↔ ∃ d, m.DepthsFit d := by
  constructor
  · rintro ⟨n, hn⟩
    obtain ⟨d, hd, -⟩ := exists_of_stackDepth hn
    exact ⟨d, hd⟩
  · rintro ⟨d, hd⟩
    obtain ⟨entered, hentered, hwithin⟩ : ∃ entered,
        (if m.code.listing.toArray.isEmpty then .ok m.unknown
          else reach (m.code.listing.toArray.map Prod.fst) .none (some 0) 0 m.unknown) = .ok entered ∧
            Within m.code.listing.toArray d entered := by
      cases hempty : m.code.listing.toArray.isEmpty with
      | true => exact ⟨_, rfl, m.within_unknown d⟩
      | false =>
        have hzero := hd.entry hempty
        exact (m.within_unknown d).exists_reach (hd.bound 0 0 hzero) hzero .none
    obtain ⟨s, hs, hwithin'⟩ := @Within.exists_reachAll m.code.listing.toArray Handler d 1 Handler.handler
      (fun h => position? m.code m.code.index h.handler) m.handlers _ hwithin fun h hh => by
        obtain ⟨p, hp, hdp⟩ := hd.handlers h hh
        exact ⟨p, hp, hd.bound p 1 hdp, hdp⟩
    rw [Method.stackDepth_eq, ← unknown, hentered]
    simp only [bind, Except.bind, hs]
    exact hwithin'.follow_ok hd.bound hd.follows

end CoordSplit
