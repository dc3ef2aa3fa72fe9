import CoordSplit.Proofs.Descriptors

/-!
# The grammar of descriptors

A descriptor is a letter, the name of a class between `L` and `;`, or `[` in front of the descriptor of the elements
(`IsDescriptor`). A method descriptor has the descriptors of the parameters between brackets, and behind them that of
the result (`IsMethodDescriptor`). Class names are any bytes but `;`, brackets and letters included.

Reading a text succeeds iff the grammar generates it, and gives the one type whose descriptor it is (`parse_exact`).
-/

set_option autoImplicit false

namespace CoordSplit

/-! ## The grammar -/

/-- The texts that write a type. -/
inductive IsDescriptor : Text → Prop
  | letter {b : UInt8} (h : b ∈ ("VZBCSIJFD" : Text)) : IsDescriptor [b]
  /-- The byte 59 is the semicolon that ends the name. -/
  | object {name : Text} (hne : name ≠ []) (hend : 59 ∉ name) : IsDescriptor ("L" ++ name ++ ";")
  | array {elem : Text} (h : IsDescriptor elem) (hvoid : elem ≠ "V") : IsDescriptor ("[" ++ elem)

/-- The text writes a method that takes what `params` write, one after the other, and gives back what `result`
writes. -/
structure IsMethodDescriptor (params : List Text) (result d : Text) : Prop where
  text : d = "(" ++ params.flatten ++ ")" ++ result
  params : ∀ p ∈ params, IsDescriptor p ∧ p ≠ "V"
  result : IsDescriptor result

namespace Prim

theorem mem_letters (p : Prim) : p.letter ∈ ("VZBCSIJFD" : Text) := by
  cases p <;> decide

theorem exists_letter {b : UInt8} (h : b ∈ ("VZBCSIJFD" : Text)) : ∃ p : Prim, p.letter = b := by
  have hletters : ("VZBCSIJFD" : Text) =
      [void, boolean, byte, char, short, int, long, float, double].map letter := by decide
  rw [hletters, List.mem_map] at h
  obtain ⟨p, -, hp⟩ := h
  exact ⟨p, hp⟩

end Prim

namespace ValueType

variable {t : ValueType} {d : Text}

theorem desc_object (name : Text) : (object name).desc = "L" ++ name ++ ";" := by
  rw [show ("L" : Text) = [76] by decide, show (";" : Text) = [59] by decide]
  rfl

theorem desc_array (elem : ValueType) : (array elem).desc = "[" ++ elem.desc := by
  rw [show ("[" : Text) = [91] by decide]
  rfl

theorem desc_eq_void_iff : t.desc = ("V" : Text) ↔ t = .void := by
  rw [show ("V" : Text) = desc .void by decide]
  exact ⟨desc_inj, congrArg desc⟩

/-! ## Types and their descriptors -/

theorem Writable.isDescriptor (h : t.Writable) : IsDescriptor t.desc := by
  induction t with
  | prim p => exact .letter p.mem_letters
  | object name =>
    rw [desc_object]
    exact .object h.1 h.2
  | array elem ih =>
    rw [desc_array]
    exact .array (ih h.2) fun hvoid => h.1 (desc_eq_void_iff.mp hvoid)
  | top => exact h.elim
  | null => exact h.elim

/-- Every text of the grammar writes a type. -/
theorem exists_writable (h : IsDescriptor d) : ∃ t : ValueType, t.Writable ∧ t.desc = d := by
  induction h with
  | letter h =>
    obtain ⟨p, rfl⟩ := Prim.exists_letter h
    exact ⟨.prim p, trivial, rfl⟩
  | @object name hne hend => exact ⟨.object name, ⟨hne, hend⟩, desc_object name⟩
  | array _ hvoid ih =>
    obtain ⟨t, ht, rfl⟩ := ih
    exact ⟨.array t, ⟨fun heq => hvoid (desc_eq_void_iff.mpr heq), ht⟩, desc_array t⟩

/-- A text is read as a type iff it is the descriptor of that type, and one that can be written. -/
theorem parse_eq_ok_iff : parse d = .ok t ↔ t.Writable ∧ t.desc = d := by
  constructor
  · intro h
    rw [parse] at h
    split at h
    · cases h
    · next t' hread =>
      obtain rfl := Except.ok.inj h
      obtain ⟨hw, hd⟩ := read_sound hread
      exact ⟨hw, by rw [hd, List.append_nil]⟩
    · cases h
  · rintro ⟨hw, rfl⟩
    have hread := read_desc hw []
    rw [List.append_nil] at hread
    rw [parse, hread]

theorem parse_eq_ok_iff_isDescriptor : parse d = .ok t ↔ IsDescriptor d ∧ t.desc = d := by
  rw [parse_eq_ok_iff]
  constructor
  · rintro ⟨hw, rfl⟩
    exact ⟨hw.isDescriptor, rfl⟩
  · rintro ⟨hd, ht⟩
    obtain ⟨u, hu, hud⟩ := exists_writable hd
    obtain rfl := desc_inj (ht.trans hud.symm)
    exact ⟨hu, ht⟩

end ValueType

/-! ## Method types and their descriptors -/

namespace MethodType

variable {f : MethodType} {ps : List Text} {r d : Text}

theorem desc_eq (f : MethodType) :
    f.desc = "(" ++ (f.params.map ValueType.desc).flatten ++ ")" ++ f.result.desc := by
  rw [show ("(" : Text) = [40] by decide, show (")" : Text) = [41] by decide, desc, List.flatMap_def]
  simp

theorem parse_eq_ok_iff : parse d = .ok f ↔ f.Writable ∧ f.desc = d := by
  constructor
  · intro h
    exact ⟨writable_of_parse h, desc_of_parse h⟩
  · rintro ⟨hw, rfl⟩
    exact parse_desc hw

/-- The parts of a method descriptor are those of a method type. -/
theorem exists_of_isMethodDescriptor (h : IsMethodDescriptor ps r d) :
    ∃ f : MethodType, f.Writable ∧ f.params.map ValueType.desc = ps ∧ f.result.desc = r ∧ f.desc = d := by
  obtain ⟨result, hresult, hr⟩ := ValueType.exists_writable h.result
  have hparams : ∃ ts : List ValueType, (∀ t ∈ ts, t.Writable ∧ t ≠ .void) ∧ ts.map ValueType.desc = ps := by
    have hps := h.params
    clear h
    induction ps with
    | nil => exact ⟨[], by simp, rfl⟩
    | cons p ps ih =>
      obtain ⟨ts, hts, hmap⟩ := ih fun q hq => hps q (by simp [hq])
      obtain ⟨hp, hvoid⟩ := hps p (by simp)
      obtain ⟨t, ht, rfl⟩ := ValueType.exists_writable hp
      refine ⟨t :: ts, ?_, by rw [List.map_cons, hmap]⟩
      exact List.forall_mem_cons.mpr ⟨⟨ht, fun heq => hvoid (ValueType.desc_eq_void_iff.mpr heq)⟩, hts⟩
  obtain ⟨params, hwritable, hmap⟩ := hparams
  refine ⟨⟨params, result⟩, ⟨hwritable, hresult⟩, hmap, hr, ?_⟩
  rw [desc_eq, hmap, hr, h.text]

theorem Writable.isMethodDescriptor (h : f.Writable) :
    IsMethodDescriptor (f.params.map ValueType.desc) f.result.desc f.desc := by
  refine ⟨f.desc_eq, ?_, h.result.isDescriptor⟩
  intro p hp
  obtain ⟨t, ht, rfl⟩ := List.mem_map.mp hp
  obtain ⟨hw, hvoid⟩ := h.params t ht
  exact ⟨hw.isDescriptor, fun heq => hvoid (ValueType.desc_eq_void_iff.mp heq)⟩

/-- Method types are told apart by the descriptors of their parts. -/
theorem eq_of_map_desc_eq {g : MethodType} (hparams : f.params.map ValueType.desc = g.params.map ValueType.desc)
    (hresult : f.result.desc = g.result.desc) : f = g := by
  have hinj : Function.Injective ValueType.desc := fun _ _ => ValueType.desc_inj
  rw [show f = ⟨f.params, f.result⟩ from rfl, hinj.list_map hparams, hinj hresult]

theorem parse_eq_ok_iff_isMethodDescriptor :
    parse d = .ok f ↔ IsMethodDescriptor (f.params.map ValueType.desc) f.result.desc d := by
  rw [parse_eq_ok_iff]
  constructor
  · rintro ⟨hw, rfl⟩
    exact hw.isMethodDescriptor
  · intro h
    obtain ⟨g, hw, hparams, hresult, hd⟩ := exists_of_isMethodDescriptor h
    obtain rfl := eq_of_map_desc_eq hparams hresult
    exact ⟨hw, hd⟩

/-- The parts of a method descriptor are read as the parameters and the result that the whole is read as. -/
theorem parse_parts (h : IsMethodDescriptor ps r d) : ∃ f, parse d = .ok f ∧
    ps.map ValueType.parse = f.params.map .ok ∧ ValueType.parse r = .ok f.result := by
  obtain ⟨f, hw, rfl, rfl, hd⟩ := exists_of_isMethodDescriptor h
  refine ⟨f, parse_eq_ok_iff.mpr ⟨hw, hd⟩, ?_, ValueType.parse_eq_ok_iff.mpr ⟨hw.result, rfl⟩⟩
  rw [List.map_map]
  apply List.map_congr_left
  intro t ht
  exact ValueType.parse_eq_ok_iff.mpr ⟨(hw.params t ht).1, rfl⟩

end MethodType

/-! ## What is read -/

/-- Every text is answered, with a type or with an error. A type is read iff the grammar generates the text, and it is
the type with that descriptor. A method type is read iff the text is made up of the descriptors of parameters and of a
result, and it has the types that these are read as and no others. -/
theorem parse_exact (d : Text) :
    ((∃ t, ValueType.parse d = .ok t) ↔ IsDescriptor d) ∧
    (∀ t, ValueType.parse d = .ok t ↔ IsDescriptor d ∧ t.desc = d) ∧
    ((∃ e, ValueType.parse d = .error e) ↔ ¬ IsDescriptor d) ∧
    ((∃ f, MethodType.parse d = .ok f) ↔ ∃ ps r, IsMethodDescriptor ps r d) ∧
    (∀ f, MethodType.parse d = .ok f ↔ IsMethodDescriptor (f.params.map ValueType.desc) f.result.desc d) ∧
    (∀ f, MethodType.parse d = .ok f → f.desc = d) ∧
    (∀ ps r, IsMethodDescriptor ps r d → ∃ f, MethodType.parse d = .ok f ∧
      ps.map ValueType.parse = f.params.map .ok ∧ ValueType.parse r = .ok f.result) ∧
    ((∃ e, MethodType.parse d = .error e) ↔ ¬ ∃ ps r, IsMethodDescriptor ps r d) := by
  have htype : (∃ t, ValueType.parse d = .ok t) ↔ IsDescriptor d := by
    constructor
    · rintro ⟨t, ht⟩
      exact (ValueType.parse_eq_ok_iff_isDescriptor.mp ht).1
    · intro h
      obtain ⟨t, ht⟩ := ValueType.exists_writable h
      exact ⟨t, ValueType.parse_eq_ok_iff.mpr ht⟩
  have hmethod : (∃ f, MethodType.parse d = .ok f) ↔ ∃ ps r, IsMethodDescriptor ps r d := by
    constructor
    · rintro ⟨f, hf⟩
      exact ⟨_, _, MethodType.parse_eq_ok_iff_isMethodDescriptor.mp hf⟩
    · rintro ⟨ps, r, h⟩
      obtain ⟨f, hf, -⟩ := MethodType.parse_parts h
      exact ⟨f, hf⟩
  refine ⟨htype, fun t => ValueType.parse_eq_ok_iff_isDescriptor, ?_, hmethod,
    fun f => MethodType.parse_eq_ok_iff_isMethodDescriptor, fun f => MethodType.desc_of_parse,
    fun ps r => MethodType.parse_parts, ?_⟩
  · rw [← htype]
    cases ValueType.parse d <;> simp
  · rw [← hmethod]
    cases MethodType.parse d <;> simp

/-- A method type with brackets and letters in a class name, an array of arrays and a wide parameter. -/
def bracketedName : MethodType := ⟨[.object "a(I)V[/b", .array (.array .long), .double], .array (.object "a")⟩

/-- The brackets in the name end neither the parameters nor the name. -/
theorem parse_exact_bracketedName : bracketedName.desc = "(La(I)V[/b;[[JD)[La;" ∧
    MethodType.parse bracketedName.desc = .ok bracketedName := by
  have hlong : ("a(I)V[/b" : Text) ≠ [] ∧ 59 ∉ ("a(I)V[/b" : Text) := by decide
  have hshort : ("a" : Text) ≠ [] ∧ 59 ∉ ("a" : Text) := by decide
  have hwritable : bracketedName.Writable := by
    constructor
    · simpa [bracketedName, ValueType.Writable] using hlong
    · simpa [bracketedName, ValueType.Writable] using hshort
  exact ⟨by decide, ((parse_exact _).2.2.2.2.1 _).mpr hwritable.isMethodDescriptor⟩

end CoordSplit
