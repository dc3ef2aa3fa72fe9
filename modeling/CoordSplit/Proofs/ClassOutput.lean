import CoordSplit.Proofs.FailureIsolation
import Mathlib.Data.List.ReduceOption

/-!
# What a transformed class consists of

A class that is transformed keeps its methods and gets copies behind them. The methods are settled one after the
other (`ClassModel.Settles`): each gets an entry in the report, and a copy if transforming it gives one whose title
is not taken, by a method of the class or by a copy that was made before. So the titles of the copies differ from
each other and from those of the methods (`Settles.nodup`), and entries and copies belong together place by place
(`ClassModel.transform_output`).
-/

set_option autoImplicit false

namespace CoordSplit

/-- Transforming the method gives a second method, `new`. -/
def Method.Yields (cat : Catalog) (owner suffix : Text) (m new : Method) : Prop :=
  m.code.size ≠ 0 ∧ ∃ t, m.transform cat owner suffix = .ok t ∧ t.method = some new

theorem Method.Yields.unique {cat : Catalog} {owner suffix : Text} {m new new' : Method}
    (h : m.Yields cat owner suffix new) (h' : m.Yields cat owner suffix new') : new = new' := by
  obtain ⟨-, t, ht, hnew⟩ := h
  obtain ⟨-, t', ht', hnew'⟩ := h'
  rw [ht] at ht'
  obtain rfl := Except.ok.inj ht'
  exact Option.some.inj (hnew.symm.trans hnew')

namespace ClassModel

variable {cat : Catalog} {owner suffix : Text}

/-- The entry and the copy that a method gets when the titles in `Taken` are taken. -/
inductive Settled (cat : Catalog) (owner suffix : Text) (Taken : Text → Prop) (m : Method) (r : MethodReport) :
    Option Method → Prop
  | copied {new : Method} (hyields : m.Yields cat owner suffix new) (hfree : ¬ Taken new.title)
      (hstatus : r.status = .transformed new.title) : Settled cat owner suffix Taken m r (some new)
  | collides {new : Method} (hyields : m.Yields cat owner suffix new) (htaken : Taken new.title)
      (hstatus : r.status = .failed ⟨m.title, -1, .exists new.title⟩) : Settled cat owner suffix Taken m r none
  | failed {e : MethodError} (hnone : ∀ new, ¬ m.Yields cat owner suffix new) (hstatus : r.status = .failed e) :
      Settled cat owner suffix Taken m r none
  | unchanged (hnone : ∀ new, ¬ m.Yields cat owner suffix new) (hstatus : r.status = .unchanged) :
      Settled cat owner suffix Taken m r none

/-- The methods get their entries and copies one after the other, where `seen` holds the titles that are taken
before the first. -/
inductive Settles (cat : Catalog) (owner suffix : Text) :
    List Text → List Method → List MethodReport → List (Option Method) → Prop
  | nil {seen : List Text} : Settles cat owner suffix seen [] [] []
  | cons {seen : List Text} {m : Method} {r : MethodReport} {copy : Option Method} {ms : List Method}
      {rs : List MethodReport} {copies : List (Option Method)} (htitle : r.title = m.title)
      (hsettled : Settled cat owner suffix (· ∈ seen) m r copy)
      (hrest : Settles cat owner suffix (copy.toList.map Method.title ++ seen) ms rs copies) :
      Settles cat owner suffix seen (m :: ms) (r :: rs) (copy :: copies)

/-- The entries and copies that are collected are those that the methods get. -/
theorem collect_settles {ms : List Method} {as : List (Method × Attempt)}
    (h : List.Forall₂ (Attempted cat owner suffix) ms as) (seen : List Text) :
    ∃ copies, Settles cat owner suffix seen ms (collect seen as).1 copies ∧
      (collect seen as).2 = copies.reduceOption := by
  induction h generalizing seen with
  | nil => exact ⟨[], .nil, rfl⟩
  | @cons m attempt ms as hattempted hrest ih =>
    -- without a copy the titles that are taken stay the same
    have hnone : ∀ r, r.title = m.title → Settled cat owner suffix (· ∈ seen) m r none →
        ∃ copies, Settles cat owner suffix seen (m :: ms) (r :: (collect seen as).1) copies ∧
          (collect seen as).2 = copies.reduceOption := by
      intro r htitle hsettled
      obtain ⟨copies, hcopies, hnew⟩ := ih seen
      exact ⟨none :: copies, .cons htitle hsettled hcopies, hnew⟩
    cases hattempted with
    | abstract hsize => exact hnone _ rfl (.unchanged (fun _ hyields => hyields.1 hsize) rfl)
    | error hsize h => exact hnone _ rfl (.failed (by simp [Method.Yields, h]) rfl)
    | @ok t hsize h =>
      simp only [collect]
      split
      · next ht => exact hnone _ rfl (.unchanged (by simp [Method.Yields, h, ht]) rfl)
      · next new ht =>
        have hyields : m.Yields cat owner suffix new := ⟨hsize, t, h, ht⟩
        split
        · next hseen => exact hnone _ rfl (.collides hyields (by simpa using hseen) rfl)
        · next hseen =>
          obtain ⟨copies, hcopies, hnew⟩ := ih (new.title :: seen)
          refine ⟨some new :: copies, .cons rfl (.copied hyields (by simpa using hseen) rfl) hcopies, ?_⟩
          rw [List.reduceOption_cons_of_some, ← hnew]

namespace Settles

variable {seen : List Text} {ms : List Method} {rs : List MethodReport} {copies : List (Option Method)}

theorem titles (h : Settles cat owner suffix seen ms rs copies) :
    rs.map MethodReport.title = ms.map Method.title := by
  induction h with
  | nil => rfl
  | cons htitle _ _ ih => rw [List.map_cons, List.map_cons, htitle, ih]

theorem length_copies (h : Settles cat owner suffix seen ms rs copies) : copies.length = ms.length := by
  induction h with
  | nil => rfl
  | cons _ _ _ ih => rw [List.length_cons, List.length_cons, ih]

/-- The copies are what transforming the methods gives. -/
theorem yields_of_mem (h : Settles cat owner suffix seen ms rs copies) {new : Method}
    (hnew : new ∈ copies.reduceOption) : ∃ m ∈ ms, m.Yields cat owner suffix new := by
  rw [List.reduceOption_mem_iff] at hnew
  induction h with
  | nil => simp at hnew
  | cons _ hsettled _ ih =>
    rcases List.mem_cons.mp hnew with heq | hmem
    · subst heq
      cases hsettled with
      | copied hyields _ _ => exact ⟨_, by simp, hyields⟩
    · obtain ⟨m, hm, hyields⟩ := ih hmem
      exact ⟨m, by simp [hm], hyields⟩

/-- The titles that are taken when the method at place `i` is settled. -/
def Taken (seen : List Text) (copies : List (Option Method)) (i : Nat) (title : Text) : Prop :=
  title ∈ seen ∨ ∃ j < i, ∃ new, copies[j]? = some (some new) ∧ new.title = title

/-- Each method is settled with the titles that are taken by then. -/
theorem settled (h : Settles cat owner suffix seen ms rs copies) {i : Nat} {m : Method} {r : MethodReport}
    (hm : ms[i]? = some m) (hr : rs[i]? = some r) :
    ∃ copy, copies[i]? = some copy ∧ Settled cat owner suffix (Taken seen copies i) m r copy := by
  induction h generalizing i with
  | nil => simp at hm
  | @cons seen _ _ copy _ _ copies _ hsettled hrest ih =>
    cases i with
    | zero =>
      simp only [List.getElem?_cons_zero, Option.some.injEq] at hm hr ⊢
      subst hm hr
      have htaken : Taken seen (copy :: copies) 0 = (· ∈ seen) := by
        funext title
        simp [Taken]
      exact ⟨copy, rfl, htaken ▸ hsettled⟩
    | succ i =>
      rw [List.getElem?_cons_succ] at hm hr
      obtain ⟨copy', hcopy', hsettled'⟩ := ih hm hr
      have htaken : Taken seen (copy :: copies) (i + 1) = Taken (copy.toList.map Method.title ++ seen) copies i := by
        funext title
        simp only [Taken, List.mem_append, List.mem_map, Option.mem_toList, eq_iff_iff]
        constructor
        · rintro (hseen | ⟨j, hj, new, hnew, rfl⟩)
          · exact .inl (.inr hseen)
          · cases j with
            | zero => exact .inl (.inl ⟨new, by simpa using hnew, rfl⟩)
            | succ j => exact .inr ⟨j, by omega, new, by simpa using hnew, rfl⟩
        · rintro ((⟨new, hnew, rfl⟩ | hseen) | ⟨j, hj, new, hnew, rfl⟩)
          · exact .inr ⟨0, by omega, new, by simpa using hnew, rfl⟩
          · exact .inl hseen
          · exact .inr ⟨j + 1, by omega, new, by simpa using hnew, rfl⟩
      exact ⟨copy', by rwa [List.getElem?_cons_succ], htaken ▸ hsettled'⟩

/-- The copies have titles of their own. -/
theorem nodup (h : Settles cat owner suffix seen ms rs copies) :
    (copies.reduceOption.map Method.title).Nodup ∧ ∀ title ∈ copies.reduceOption.map Method.title, title ∉ seen := by
  induction h with
  | nil => simp
  | @cons seen m r copy ms rs copies _ hsettled hrest ih =>
    cases hsettled with
    | collides | failed | unchanged => simpa using ih
    | @copied new hyields hfree hstatus =>
      simp only [Option.toList_some, List.map_cons, List.map_nil, List.singleton_append] at ih
      simp only [List.reduceOption_cons_of_some, List.map_cons, List.nodup_cons]
      refine ⟨⟨fun hmem => ih.2 _ hmem List.mem_cons_self, ih.1⟩, ?_⟩
      intro title hmem
      rcases List.mem_cons.mp hmem with rfl | hmem
      · exact hfree
      · exact fun hseen => ih.2 _ hmem (List.mem_cons_of_mem _ hseen)

end Settles

/-- The class `out` is the class `c` with copies of some of its methods behind them, as the report tells. The list
`copies` has a place for each method of `c`. -/
structure Extended (cat : Catalog) (suffix : Text) (c out : ClassModel) (report : Report)
    (copies : List (Option Method)) : Prop where
  /-- The methods stay as they are and in their order, and the copies follow in the order of their originals. -/
  kept : out = { c with methods := c.methods ++ copies.reduceOption }
  /-- Each method has one entry, and a place for a copy. -/
  entries : report.methods.map MethodReport.title = c.methods.map Method.title
  places : copies.length = c.methods.length
  /-- Exactly the methods that are reported as transformed have copies. -/
  copied_iff : ∀ (i : Nat) (m : Method) (r : MethodReport), c.methods[i]? = some m →
    report.methods[i]? = some r →
    ((∃ new, copies[i]? = some (some new)) ↔ ∃ title, r.status = .transformed title)
  /-- A copy is what transforming its original gives, and the report names it. -/
  yields : ∀ (i : Nat) (m new : Method) (r : MethodReport), c.methods[i]? = some m →
    report.methods[i]? = some r → copies[i]? = some (some new) →
    m.Yields cat c.name suffix new ∧ r.status = .transformed new.title
  /-- What would have the title of a method of the class or of an earlier copy is reported as failed. -/
  collision : ∀ (i : Nat) (m new : Method) (r : MethodReport), c.methods[i]? = some m →
    report.methods[i]? = some r → m.Yields cat c.name suffix new →
    Settles.Taken (c.methods.map Method.title) copies i new.title →
    r.status = .failed ⟨m.title, -1, .exists new.title⟩
  /-- Everything else that transforming a method gives is a copy. -/
  free : ∀ (i : Nat) (m new : Method) (r : MethodReport), c.methods[i]? = some m →
    report.methods[i]? = some r → m.Yields cat c.name suffix new →
    ¬ Settles.Taken (c.methods.map Method.title) copies i new.title → copies[i]? = some (some new)
  /-- No copy has the title of another method. -/
  distinct : ∀ (i j : Nat) (m k : Method), c.methods.length ≤ i → j ≠ i → out.methods[i]? = some m →
    out.methods[j]? = some k → m.title ≠ k.title

/-- Methods that have titles of their own differ from all methods that they are put behind. -/
theorem title_ne_of_nodup {ms new : List Method} (hnodup : (new.map Method.title).Nodup)
    (hfresh : ∀ title ∈ new.map Method.title, title ∉ ms.map Method.title) {i j : Nat} {m k : Method}
    (hi : ms.length ≤ i) (hne : j ≠ i) (hm : (ms ++ new)[i]? = some m) (hk : (ms ++ new)[j]? = some k) :
    m.title ≠ k.title := by
  rw [List.getElem?_append_right hi] at hm
  intro htitle
  by_cases hj : j < ms.length
  · rw [List.getElem?_append_left hj] at hk
    refine hfresh _ (List.mem_map_of_mem (List.mem_of_getElem? hm)) ?_
    rw [htitle]
    exact List.mem_map_of_mem (List.mem_of_getElem? hk)
  · rw [List.getElem?_append_right (by omega)] at hk
    obtain ⟨hlt, hm⟩ := List.getElem?_eq_some_iff.mp hm
    obtain ⟨hlt', hk⟩ := List.getElem?_eq_some_iff.mp hk
    have hplace : i - ms.length = j - ms.length := by
      refine (@List.Nodup.getElem_inj_iff _ _ hnodup _ (by simpa using hlt) _ (by simpa using hlt')).mp ?_
      simpa [hm, hk] using htitle
    omega

/-- A class whose methods are settled is extended by their copies. -/
theorem Settles.extended {c : ClassModel} {rs : List MethodReport} {copies : List (Option Method)} {run : Text}
    (h : Settles cat c.name suffix (c.methods.map Method.title) c.methods rs copies) :
    c.Extended cat suffix { c with methods := c.methods ++ copies.reduceOption } ⟨run, c.name, rs⟩ copies where
  kept := rfl
  entries := h.titles
  places := h.length_copies
  copied_iff i m r hm hr := by
    obtain ⟨copy, hcopy, hsettled⟩ := h.settled hm hr
    rw [hcopy]
    cases hsettled with
    | copied hyields hfree hstatus => simp [hstatus]
    | collides hyields htaken hstatus => simp [hstatus]
    | failed hnone hstatus => simp [hstatus]
    | unchanged hnone hstatus => simp [hstatus]
  yields i m new r hm hr hnew := by
    obtain ⟨copy, hcopy, hsettled⟩ := h.settled hm hr
    obtain rfl : copy = some new := Option.some.inj (hcopy.symm.trans hnew)
    cases hsettled with
    | copied hyields _ hstatus => exact ⟨hyields, hstatus⟩
  collision i m new r hm hr hyields htaken := by
    obtain ⟨copy, hcopy, hsettled⟩ := h.settled hm hr
    cases hsettled with
    | copied hyields' hfree _ => exact absurd (hyields.unique hyields' ▸ htaken) hfree
    | collides hyields' _ hstatus => rw [hstatus, hyields.unique hyields']
    | failed hnone _ => exact absurd hyields (hnone new)
    | unchanged hnone _ => exact absurd hyields (hnone new)
  free i m new r hm hr hyields hfree := by
    obtain ⟨copy, hcopy, hsettled⟩ := h.settled hm hr
    cases hsettled with
    | copied hyields' _ _ => rw [hcopy, hyields.unique hyields']
    | collides hyields' htaken _ => exact absurd (hyields.unique hyields' ▸ htaken) hfree
    | failed hnone _ => exact absurd hyields (hnone new)
    | unchanged hnone _ => exact absurd hyields (hnone new)
  distinct i j m k hi hne hm hk := title_ne_of_nodup h.nodup.1 h.nodup.2 hi hne hm hk

/-- Transforming a class settles its methods, and puts their copies behind them. -/
theorem transform_settles {c out : ClassModel} {report : Report} {run : Text}
    (h : c.transform cat suffix run = .ok (out, report)) :
    ∃ rs copies, Settles cat c.name suffix (c.methods.map Method.title) c.methods rs copies ∧
      out = { c with methods := c.methods ++ copies.reduceOption } ∧ report = ⟨run, c.name, rs⟩ := by
  rw [transform] at h
  obtain ⟨as, has, h⟩ := except_bind_ok.mp h
  have hattempted := attempts_ok (Outcome.ofFault_ok.mp has)
  cases hfound : malformed? as with
  | some e => simp [hfound, Outcome.fail, bind, Except.bind] at h
  | none =>
    obtain ⟨copies, hsettles, hnew⟩ := collect_settles hattempted (c.methods.map Method.title)
    simp only [hfound, pure, Except.pure, hnew, Except.ok.injEq, Prod.mk.injEq] at h
    exact ⟨_, copies, hsettles, h.1.symm, h.2.symm⟩

/-- The output of a class. A class that is transformed keeps its methods, with one entry in the report for each, and
gets one copy for exactly those that are reported as transformed, in their order. No copy has the name and the
descriptor of another method: what would is reported as failed. -/
theorem transform_output {c out : ClassModel} {report : Report} {run : Text}
    (h : c.transform cat suffix run = .ok (out, report)) :
    ∃ copies, c.Extended cat suffix out report copies := by
  obtain ⟨rs, copies, hsettles, rfl, rfl⟩ := transform_settles h
  exact ⟨copies, hsettles.extended⟩

namespace TwoCollisions

/-- A method that passes its packed parameter on. -/
def passing (name : Text) : Method :=
  ⟨name, "(J)V", ⟨8⟩, .ofList [.var .lload 0, .call .invokestatic ⟨"Q", "g", "(J)V"⟩ false, .plain .returnVoid],
    [], [], 2, 2⟩

/-- Two methods of one title, and one whose copy would have the title of the last. -/
def model : ClassModel :=
  ⟨"C", defaultParent, [passing "f", passing "f", passing "g",
    ⟨"g", "(III)V", ⟨8⟩, .ofList [.plain .returnVoid], [], [], 0, 3⟩]⟩

/-- Only the first method gets a copy: the second would collide with that copy, the third with a method. -/
theorem transform_output_twoCollisions :
    ∃ out report copies, model.transform .oneEntry "" "run" = .ok (out, report) ∧
      model.Extended .oneEntry "" out report copies ∧ report.failed = 2 ∧
      out.methods.map Method.title = ["f(J)V", "f(J)V", "g(J)V", "g(III)V", "f(III)V"] := by
  have hok : (model.transform .oneEntry "" "run").toOption.map
      (fun p => (p.2.failed, p.1.methods.map Method.title)) =
      some (2, (["f(J)V", "f(J)V", "g(J)V", "g(III)V", "f(III)V"] : List Text)) := by decide +kernel
  obtain ⟨⟨out, report⟩, h, hok⟩ := except_ok_of_map hok
  obtain ⟨copies, hcopies⟩ := transform_output h
  obtain ⟨hfailed, htitles⟩ := Prod.mk.inj hok
  exact ⟨out, report, copies, h, hcopies, hfailed, htitles⟩

end TwoCollisions

end ClassModel

end CoordSplit
