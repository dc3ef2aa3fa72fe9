import CoordSplit.Proofs.LinkedCode
import CoordSplit.Proofs.SlotPlaces

/-!
# Code with its slots moved

A slot map that refuses nothing changes the instructions of a code one by one and leaves their ids and
their order alone: the new listing is the old one with every slot moved (`SlotMap.apply_holds`).
-/

set_option autoImplicit false

namespace CoordSplit

open Code

namespace Code

theorem Holds.modify {c : Code} {a b : List (InsnId × Insn)} {id : InsnId} {x : Insn}
    (h : c.Holds (a ++ (id, x) :: b)) (y : Insn) :
    (c.modify id fun n => { n with insn := y }).Holds (a ++ (id, y) :: b) := by
  obtain ⟨d, hset, hd, -⟩ := h.set y
  rw [Code.set, h.linked.node?_eq] at hset
  simp only [Except.ok.injEq] at hset
  rw [hset]
  exact hd

end Code

namespace SlotMap

variable {m : SlotMap}

/-- What moving the lines `ls` of a code does, when the lines before them have been moved. -/
theorem moveAll_holds {done ls : List (InsnId × Insn)} {r : Moved} (h : r.code.Holds (done ++ ls))
    (hr : r.refused = none) (hok : (m.moveAll ls r).refused = none) :
    (m.moveAll ls r).code.Holds (done ++ ls.map fun p => (p.1, m.mapInsn p.2)) ∧
    (m.moveAll ls r).code.nodes.size = r.code.nodes.size ∧
    ∀ p ∈ ls, p.2.checkAccess m.expanded p.1 = .ok () := by
  induction ls generalizing done r with
  | nil => exact ⟨by simpa [moveAll] using h, rfl, by simp⟩
  | cons p ls ih =>
    obtain ⟨id, x⟩ := p
    rw [moveAll] at hok ⊢
    cases hc : x.checkAccess m.expanded id with
    | error e => simp [hc] at hok
    | ok u =>
      simp only [hc] at hok ⊢
      split at hok
      · next hsame =>
        rw [if_pos hsame]
        have hstep := @ih (done ++ [(id, x)]) r (by simpa using h) hr hok
        refine ⟨?_, hstep.2.1, ?_⟩
        · rw [List.map_cons, hsame]
          simpa using hstep.1
        · simp only [List.mem_cons, forall_eq_or_imp]
          exact ⟨hc, hstep.2.2⟩
      · next hnew =>
        rw [if_neg hnew]
        have hmod := h.modify (m.mapInsn x)
        have hstep := @ih (done ++ [(id, m.mapInsn x)])
          { r with code := r.code.modify id fun n => { n with insn := m.mapInsn x }, changed := true }
          (by simpa using hmod) hr hok
        refine ⟨?_, ?_, ?_⟩
        · rw [List.map_cons]
          simpa using hstep.1
        · rw [hstep.2.1]
          simp
        · simp only [List.mem_cons, forall_eq_or_imp]
          exact ⟨hc, hstep.2.2⟩

/-- A map that refuses nothing moves the slots of every line and keeps everything else. -/
theorem apply_holds {c : Code} (h : c.WellLinked) (hok : (m.apply c).refused = none) :
    (m.apply c).code.Holds (c.listing.map fun p => (p.1, m.mapInsn p.2)) ∧
    (m.apply c).code.nodes.size = c.nodes.size ∧
    ∀ p ∈ c.listing, p.2.checkAccess m.expanded p.1 = .ok () := by
  have hstep := @moveAll_holds m [] c.listing ⟨c, false, none⟩ h rfl hok
  exact hstep

end SlotMap

end CoordSplit
