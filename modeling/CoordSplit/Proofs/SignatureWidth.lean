import CoordSplit.Proofs.ParameterLayout

/-!
# The width of an expanded signature

The descriptor of a transformed method is made from that of the method and the expanded slots: each parameter that
starts in an expanded slot is a long and becomes three ints, and the others stay. Since three ints take one slot more
than a long (`SlotMap.growth`), the parameters together take one slot more for each of them
(`Method.expandedDesc_conserves`).
-/

set_option autoImplicit false

namespace CoordSplit

/-- The number of slots that the three ints of an expanded value take more than a long. -/
def SlotMap.growth : Nat := Axis.all.length * ValueType.int.size - ValueType.long.size

/-- That is how far an expanded slot moves those behind it. -/
theorem SlotMap.place_eq_growth (E : IndexSet) (slot : Int) :
    SlotMap.place E slot = slot + SlotMap.growth * E.countBelow slot := by
  rw [show SlotMap.growth = 1 from rfl, place, Nat.cast_one, one_mul]

namespace ValueType

variable {E : IndexSet} {slot : Int} {ts : List ValueType}

/-- Every type is replaced on its own, by the slot in which its value starts. -/
theorem expandAll_eq_flatMap : expandAll E slot ts =
    (ts.zip (starts slot ts)).flatMap fun p => if E.contains p.2 then [.int, .int, .int] else [p.1] := by
  induction ts generalizing slot with
  | nil => rfl
  | cons t ts ih =>
    rw [expandAll, starts, List.zip_cons_cons, List.flatMap_cons, ← ih]
    split <;> rfl

/-- Where only longs start in expanded slots, each of them adds to the width what an expanded value grows by. -/
theorem sum_size_expandAll (hlong : ∀ (i : Nat) (s : Int) (t : ValueType), (starts slot ts)[i]? = some s →
      ts[i]? = some t → E.contains s = true → t = .long) :
    ((expandAll E slot ts).map size).sum =
      (ts.map size).sum + SlotMap.growth * (starts slot ts).countP E.contains := by
  induction ts generalizing slot with
  | nil => rfl
  | cons t ts ih =>
    have hrest := ih fun i s u hs hu => hlong (i + 1) s u (by simpa [starts] using hs) (by simpa using hu)
    rw [expandAll, starts]
    by_cases he : E.contains slot = true
    · obtain rfl : t = .long := hlong 0 slot t (by simp [starts]) (by simp) he
      rw [if_pos he, List.countP_cons_of_pos he, Nat.mul_add]
      simp only [List.map_cons, List.sum_cons, hrest]
      rw [show SlotMap.growth * 1 = 1 from rfl, show size .int = 1 from rfl, show size .long = 2 from rfl]
      omega
    · rw [if_neg he, List.countP_cons_of_neg he, List.map_cons, List.sum_cons, hrest, List.map_cons, List.sum_cons]
      omega

end ValueType

theorem MethodType.split_result {f g : MethodType} {indices : List Int} (h : f.split indices = .ok g) :
    g.result = f.result := by
  obtain ⟨-, -, hg⟩ := except_bind_ok.mp h
  rw [← Except.ok.inj hg]

namespace Method

variable {m : Method} {f : MethodType} {E : IndexSet} {d : Text}

/-- The expanded descriptor of a method can be read. It has the same result and, in the same order, the same
parameters, but three ints for each that starts in an expanded slot, all of which are longs. Its parameters take as
many slots more as the expanded ones among them grow by, and by as much an expanded slot moves the others. -/
theorem expandedDesc_conserves (hf : m.type = .ok f) (h : m.expandedDesc (.ofSlots E) = .ok d) :
    ∃ g, MethodType.parse d = .ok g ∧ g.result = f.result ∧
      g.params = ((f.params.zip (m.paramStarts f)).flatMap fun p =>
        if E.contains p.2 then [.int, .int, .int] else [p.1]) ∧
      (∀ (i : Nat) (s : Int) (t : ValueType), (m.paramStarts f)[i]? = some s → f.params[i]? = some t →
        E.contains s = true → t = .long) ∧
      g.size = f.size + SlotMap.growth * (m.paramStarts f).countP E.contains ∧
      (∀ s, SlotMap.place E s = s + SlotMap.growth * E.countBelow s) ∧
      ∀ s, SlotMap.place E s < Slot.limit → (SlotMap.ofSlots E).map s = SlotMap.place E s := by
  obtain ⟨f', g, indices, hf', hindices, hsplit, rfl⟩ := expandedDesc_ok h
  obtain rfl := Except.ok.inj (hf.symm.trans hf')
  obtain ⟨-, hexpand, hlong⟩ := expandedParams_ok hindices
  have hparams : g.params = ValueType.expandAll E m.firstParam f.params :=
    (MethodType.split_params hsplit).trans hexpand
  refine ⟨g, MethodType.parse_desc ((MethodType.writable_of_parse hf).split hsplit), MethodType.split_result hsplit,
    hparams.trans ValueType.expandAll_eq_flatMap, hlong, ?_, SlotMap.place_eq_growth E,
    fun _ => SlotMap.map_eq_place⟩
  rw [MethodType.size, hparams]
  exact ValueType.sum_size_expandAll hlong

/-- An instance method whose parameters are a long, an int and a long, in the slots 1, 3 and 4. -/
def longIntLong : Method := ⟨"m", "(JIJ)V", .none, .ofList [.plain .returnVoid], [], [], 0, 6⟩

/-- With slot 4 expanded the last parameter becomes three ints, and the parameters take six slots instead of five. -/
theorem expandedDesc_conserves_longIntLong :
    longIntLong.expandedDesc (.ofSlots (.singleton 4)) = .ok "(JIIII)V" ∧
    ∃ g, MethodType.parse "(JIIII)V" = .ok g ∧ g.params = [.long, .int, .int, .int, .int] ∧ g.size = 6 := by
  have hf : longIntLong.type = .ok ⟨[.long, .int, .long], .void⟩ := by decide +kernel
  have hdesc : longIntLong.expandedDesc (.ofSlots (.singleton 4)) = .ok "(JIIII)V" := by
    unfold expandedDesc
    rw [hf]
    rfl
  obtain ⟨g, hg, -, hparams, -, hsize, -⟩ := expandedDesc_conserves hf hdesc
  exact ⟨hdesc, g, hg, hparams, hsize⟩

end Method

end CoordSplit
