import CoordSplit.Proofs.AssemblyReading
import CoordSplit.Proofs.TransformedForms

/-!
# Records are read back

The classes that the program handles come from a text or from a record, and may have been transformed
(`ClassModel.Obtained`). All of them can be put on record: those of a text because spelled instructions are in the form
that their opcodes ask for (`Insn.Spelled.formed`), and transformed ones because rewriting keeps that form. So each has
a record, and the record gives back the class with its instructions numbered by position
(`ClassRecord.toClass_of_obtained`).
-/

set_option autoImplicit false

namespace CoordSplit

/-! ## Spelled classes can be put on record -/

theorem Method.Spelled.recordable {m : Method} (h : m.Spelled) : m.Recordable :=
  ⟨h.ordered.wellLinked, h.anchored, fun p hp => (h.insns p hp).formed, h.access, h.type⟩

/-! ## Obtained classes -/

namespace ClassModel

/-- The class came from a text or from a record. -/
inductive Loaded : ClassModel → Prop
  | parsed {t : Text} {c : ClassModel} (h : Assembly.parse t = .ok c) : Loaded c
  | decoded {r : ClassRecord} {c : ClassModel} (h : r.toClass = .ok c) : Loaded c

/-- The class came from a text or from a record, and was transformed any number of times. -/
inductive Obtained : ClassModel → Prop
  | loaded {c : ClassModel} (h : c.Loaded) : Obtained c
  | transformed {cat : Catalog} {suffix run : Text} {c out : ClassModel} {report : Report} (hc : c.Obtained)
      (h : c.transform cat suffix run = .ok (out, report)) : Obtained out

theorem Loaded.recordable {c : ClassModel} (h : c.Loaded) : c.Recordable ∧ ∀ m ∈ c.methods, m.Ordered := by
  cases h with
  | parsed h =>
    have hc := Assembly.parse_spelled h
    exact ⟨fun m hm => (hc.methods m hm).recordable, fun m hm => (hc.methods m hm).ordered⟩
  | decoded h => exact ClassRecord.recordable_of_toClass h

theorem Obtained.recordable {c : ClassModel} (h : c.Obtained) : c.Recordable := by
  induction h with
  | loaded h => exact h.recordable.1
  | transformed _ h ih => exact ih.transform h

end ClassModel

/-- Records are read back. A class that came from a text or from a record, transformed or not, has a record, and the
record describes the class with its instructions numbered by position. If it was not transformed this is the class
itself. -/
theorem ClassRecord.toClass_of_obtained {c : ClassModel} (h : c.Obtained) :
    ∃ r, ofClass c = .ok r ∧ r.toClass = .ok c.renumber ∧ (c.Loaded → c.renumber = c) := by
  obtain ⟨r, hr, hread⟩ := toClass_ofClass h.recordable
  refine ⟨r, hr, hread, ?_⟩
  intro hloaded
  obtain ⟨hrecordable, hordered⟩ := hloaded.recordable
  exact ClassModel.renumber_eq_self hrecordable hordered

/-- A class with a method that passes its packed parameter on. -/
def ClassRecord.passingText : Text :=
  "class C\nmethod static m (J)V\nS:\n\tlload 0\n\tinvokestatic Q#g (J)V\n\tgoto S\nend\n"

/-- The copy of the method has three loads in place of one, so its ids are not its positions, but it is read back from
its record by position. -/
theorem ClassRecord.toClass_of_obtained_passing :
    ∃ c out report r, Assembly.parse passingText = .ok c ∧
      c.transform .oneEntry "" "run" = .ok (out, report) ∧
      ofClass out = .ok r ∧ r.toClass = .ok out.renumber ∧ out.renumber ≠ out := by
  have hmoved : ((Assembly.parse passingText).toOption.bind fun c =>
      (c.transform .oneEntry "" "run").toOption.map fun p => decide (p.1.renumber = p.1)) =
      some false := by decide +kernel
  obtain ⟨c, hc, hmoved⟩ := except_ok_of_bind hmoved
  obtain ⟨⟨out, report⟩, ht, hne⟩ := except_ok_of_map hmoved
  obtain ⟨r, hr, hread, -⟩ := toClass_of_obtained (.transformed (.loaded (.parsed hc)) ht)
  exact ⟨c, out, report, r, hc, ht, hr, hread, of_decide_eq_false hne⟩

end CoordSplit
