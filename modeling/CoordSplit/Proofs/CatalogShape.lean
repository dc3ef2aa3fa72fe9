import CoordSplit.Catalog.Spec
import CoordSplit.Proofs.Descriptors
import CoordSplit.Proofs.TransformStages

/-!
# The shape of catalogs

What the checks on a description give: in a catalog that could be built, every member has the descriptor
that its role asks for. So the roles exclude each other: an accessor, which gives an int, is never taken
for a call that gives a coordinate.
-/

set_option autoImplicit false

namespace CoordSplit

/-- What an entry that could be built is like. -/
structure Entry.Shaped (e : Entry) : Prop where
  type : ∃ f g, MethodType.parse e.key.desc = .ok f ∧ f.split e.packedArgs = .ok g ∧
    e.replacement.desc = g.desc ∧ (e.returnsPacked = true → f.result = .long) ∧
    (e.axes.isSome = true → f.params = [])
  pack : e.pack = true → e.returnsPacked = true ∧ e.isStatic = true ∧ e.key.desc = ("(III)J" : Text)
  axes : ∀ a, e.axes = some a → e.returnsPacked = true ∧ e.isStatic = false ∧
    ∀ axis, (a.get axis).desc = ("()I" : Text)

/-- What the call that moves a coordinate is like if it could be built. -/
structure OffsetCall.Shaped (o : OffsetCall) : Prop where
  type : ∃ f t, MethodType.parse o.method.desc = .ok f ∧ f.params = [.long, t] ∧ t.isRef = true ∧
    f.result = .long
  axes : ∀ axis, (o.axes.get axis).desc = ("()I" : Text)

/-- What a catalog that could be built is like. -/
structure Catalog.Shaped (c : Catalog) : Prop where
  unpack : ∀ axis, (c.unpack.get axis).desc = ("(J)I" : Text)
  offset : ∀ o, c.offset = some o → o.Shaped
  entries : ∀ e ∈ c.entries, e.Shaped

/-! ## Reading members -/

variable {key desc : Text} {m : Member} {f : MethodType} {s : EntrySpec}

/-- A member that was read has a type. -/
theorem Member.parse_ok (h : Member.parse key = .ok (m, f)) : MethodType.parse m.desc = .ok f := by
  rw [Member.parse] at h
  split at h
  · simp at h
  · split at h
    · simp at h
    · split at h
      · simp at h
      · split at h
        · simp at h
        · next hparse =>
          obtain ⟨rfl, rfl⟩ := Prod.mk.inj (Except.ok.inj h)
          exact hparse

/-- An accessor has the descriptor that was asked for. -/
theorem Member.parseAccessor_ok (h : Member.parseAccessor desc key = .ok m) : m.desc = desc := by
  rw [Member.parseAccessor] at h
  split at h
  · simp at h
  · split at h
    · next hdesc =>
      simp only [Except.ok.injEq] at h
      rw [← h, hdesc]
    · simp at h

/-- So has each of the three accessors. -/
theorem AxisMembers.desc_of_read {i : Nat} (h : (match Member.parseAccessor desc key with
      | .error e => (.error (.accessor i e) : Except AxesError Member) | .ok m => .ok m) = .ok m) : m.desc = desc := by
  split at h
  · simp at h
  · next n hn =>
    obtain rfl := Except.ok.inj h
    exact Member.parseAccessor_ok hn

/-- All accessors have the descriptor that was asked for. -/
theorem AxisMembers.parse_ok {keys : List Text} {a : AxisMembers}
    (h : AxisMembers.parse desc keys = .ok a) (axis : Axis) : (a.get axis).desc = desc := by
  rw [AxisMembers.parse.eq_def] at h
  split at h
  · obtain ⟨x, hx, h⟩ := except_bind_ok.mp h
    obtain ⟨y, hy, h⟩ := except_bind_ok.mp h
    obtain ⟨z, hz, h⟩ := except_bind_ok.mp h
    obtain rfl := Except.ok.inj h
    cases axis with
    | x => exact desc_of_read hx
    | y => exact desc_of_read hy
    | z => exact desc_of_read hz
  · simp at h

/-! ## Building entries and catalogs -/

/-- What has accessors gives a coordinate of its receiver. -/
theorem EntrySpec.buildAxes_ok {a : AxisMembers} (h : s.buildAxes f = .ok a) :
    s.returnsPacked = true ∧ s.isStatic = false ∧ f.params = [] ∧
      ∀ axis, (a.get axis).desc = ("()I" : Text) := by
  rw [EntrySpec.buildAxes] at h
  split at h
  · simp at h
  · next hshape =>
    simp only [not_or, Bool.not_eq_true, Bool.not_eq_false] at hshape
    obtain ⟨hreturns, hstatic, hparams⟩ := hshape
    split at h
    · next hparse =>
      obtain rfl := Except.ok.inj h
      exact ⟨hreturns, hstatic, by simpa using hparams, AxisMembers.parse_ok hparse⟩
    · simp at h
    · simp at h

/-- An entry with the given axes has its shape, if all checks were passed. -/
theorem EntrySpec.shaped_of_checks {replacement : Member} {g : MethodType} {args : List Int}
    {axes : Option AxisMembers} (hparse : MethodType.parse m.desc = .ok f) (hsplit : f.split args = .ok g)
    (hdesc : replacement.desc = g.desc) (hreturns : ¬ (s.returnsPacked = true ∧ f.result ≠ .long))
    (haxes : ∀ a, axes = some a → s.buildAxes f = .ok a)
    (hpack : ¬ (s.pack = true ∧ (¬ s.returnsPacked = true ∨ ¬ s.isStatic = true ∨ m.desc ≠ ("(III)J" : Text)))) :
    (⟨m, s.returnsPacked, args, s.isStatic, replacement, axes, s.pack⟩ : Entry).Shaped := by
  refine ⟨⟨f, g, hparse, hsplit, hdesc, ?_, ?_⟩, ?_, ?_⟩
  · intro h
    by_contra hlong
    exact hreturns ⟨h, hlong⟩
  · intro h
    obtain ⟨a, ha⟩ := Option.isSome_iff_exists.mp h
    exact (buildAxes_ok (haxes a ha)).2.2.1
  · intro h
    by_contra hnot
    apply hpack
    refine ⟨h, ?_⟩
    tauto
  · intro a ha
    obtain ⟨hpacked, hstatic, -, hdescs⟩ := buildAxes_ok (haxes a ha)
    exact ⟨hpacked, hstatic, hdescs⟩

/-- An entry that could be built has its shape. -/
theorem EntrySpec.build_shaped {e : Entry} (h : s.build key = .ok e) : e.Shaped := by
  simp only [EntrySpec.build, throw, throwThe, MonadExceptOf.throw, bind, Except.bind, pure, Except.pure] at h
  split at h
  · simp at h
  · next r hparse =>
    split at h
    · simp at h
    · next g hsplit =>
      split at h
      · simp at h
      · next hreturns =>
        split at h
        · simp at h
        · split at h
          · simp at h
          · split at h
            · split at h
              · simp at h
              · next hpack =>
                obtain rfl := Except.ok.inj h
                exact shaped_of_checks (Member.parse_ok hparse) hsplit rfl hreturns (by simp) hpack
            · split at h
              · simp at h
              · next axes haxes =>
                split at h
                · simp at h
                · next hpack =>
                  obtain rfl := Except.ok.inj h
                  refine shaped_of_checks (Member.parse_ok hparse) hsplit rfl hreturns ?_ hpack
                  intro a ha
                  cases hb : s.buildAxes r.2 with
                  | error x => simp [hb, Except.map] at haxes
                  | ok b =>
                    simp only [hb, Except.map, Except.ok.injEq] at haxes
                    rw [← haxes, Option.some.injEq] at ha
                    rw [ha]

/-- A call that moves coordinates has its shape, if it could be built. -/
theorem OffsetSpec.build_shaped {s : OffsetSpec} {o : OffsetCall} (h : s.build = .ok o) : o.Shaped := by
  simp only [OffsetSpec.build, throw, throwThe, MonadExceptOf.throw, bind, Except.bind, pure, Except.pure] at h
  split at h
  · simp at h
  · next r hparse =>
    split at h
    · next a b hparams =>
      split at h
      · simp at h
      · next hfits =>
        simp only [Bool.not_eq_true, Bool.not_eq_false', Bool.and_eq_true, decide_eq_true_eq] at hfits
        obtain ⟨⟨rfl, hb⟩, hresult⟩ := hfits
        split at h
        · next axes haxes =>
          obtain rfl := Except.ok.inj h
          exact ⟨⟨r.2, b, Member.parse_ok hparse, hparams, hb, hresult⟩, AxisMembers.parse_ok haxes⟩
        · simp at h
        · simp at h
    · simp at h

/-- All entries have their shape. -/
theorem CatalogSpec.buildEntries_shaped {specs : List (Text × EntrySpec)} {es : List Entry}
    (h : buildEntries specs = .ok es) : ∀ e ∈ es, e.Shaped := by
  induction specs generalizing es with
  | nil =>
    simp only [buildEntries, Except.ok.injEq] at h
    simp [← h]
  | cons p specs ih =>
    obtain ⟨key, s⟩ := p
    rw [buildEntries] at h
    split at h
    · simp at h
    · next e he =>
      cases hrest : buildEntries specs with
      | error x => simp [hrest, Except.map] at h
      | ok rest =>
        simp only [hrest, Except.map, Except.ok.injEq] at h
        intro e' he'
        rw [← h, mem_insertSorted] at he'
        rcases he' with rfl | he'
        · exact EntrySpec.build_shaped he
        · exact ih hrest e' he'

/-- Every catalog that can be built has its shape. -/
theorem CatalogSpec.build_shaped {s : CatalogSpec} {cat : Catalog} (h : s.build = .ok cat) : cat.Shaped := by
  simp only [CatalogSpec.build, throw, throwThe, MonadExceptOf.throw, bind, Except.bind, pure, Except.pure] at h
  split at h
  · next unpack hunpack =>
    split at h
    · split at h
      · simp at h
      · next entries hentries =>
        obtain rfl := Except.ok.inj h
        exact ⟨AxisMembers.parse_ok hunpack, by simp, buildEntries_shaped hentries⟩
    · next o ho =>
      cases hbuilt : o.build with
      | error x => simp [hbuilt, Except.map] at h
      | ok call =>
        simp only [hbuilt, Except.map] at h
        split at h
        · simp at h
        · next entries hentries =>
          obtain rfl := Except.ok.inj h
          refine ⟨AxisMembers.parse_ok hunpack, ?_, buildEntries_shaped hentries⟩
          intro o' ho'
          rw [Option.some.injEq] at ho'
          rw [← ho']
          exact OffsetSpec.build_shaped hbuilt
  · simp at h
  · simp at h

/-! ## Roles exclude each other -/

/-- Types without classes and arrays can be written. -/
theorem MethodType.writable_of_prims {params : List Prim} {result : Prim} (h : .void ∉ params) :
    (⟨params.map .prim, .prim result⟩ : MethodType).Writable := by
  refine ⟨?_, trivial⟩
  intro v hv
  obtain ⟨p, hp, rfl⟩ := List.mem_map.mp hv
  refine ⟨trivial, ?_⟩
  rintro hvoid
  rw [ValueType.prim.inj hvoid] at hp
  exact h hp

/-- The type of what takes an axis out. -/
theorem parse_unpackDesc : MethodType.parse ("(J)I" : Text) = .ok ⟨[.long], .int⟩ :=
  MethodType.parse_desc (@MethodType.writable_of_prims [.long] .int (by decide))

/-- The type of an accessor. -/
theorem parse_accessorDesc : MethodType.parse ("()I" : Text) = .ok ⟨[], .int⟩ :=
  MethodType.parse_desc (@MethodType.writable_of_prims [] .int (by decide))

/-- The type of what packs. -/
theorem parse_packDesc : MethodType.parse ("(III)J" : Text) = .ok ⟨[.int, .int, .int], .long⟩ :=
  MethodType.parse_desc (@MethodType.writable_of_prims [.int, .int, .int] .long (by decide))

/-- The accessor of an axis. -/
theorem Entry.axisMember_eq {e : Entry} {axes : AxisMembers} (ha : e.axes = some axes) (axis : Axis) :
    e.axisMember axis = axes.get axis := by
  rw [axisMember, ha]

namespace Catalog

variable {cat : Catalog}

variable {m : Member} {e : Entry}

/-- What is found is an entry with the key. -/
theorem lookup_key (h : cat.lookup m = some e) : e.key = m ∧ e ∈ cat.entries := by
  rw [lookup, List.find?_eq_some_iff_append] at h
  obtain ⟨hkey, as, bs, hentries, -⟩ := h
  refine ⟨by simpa using hkey, ?_⟩
  rw [hentries]
  simp

/-- What takes an axis out is the member for it. -/
theorem unpackAxis?_get {axis : Axis} (h : cat.unpackAxis? m = some axis) : cat.unpack.get axis = m := by
  rw [unpackAxis?] at h
  simpa using List.find?_some h

variable (h : cat.Shaped)

include h

/-- The descriptor of what takes an axis out. -/
theorem Shaped.unpackAxis?_desc {axis : Axis} (hm : cat.unpackAxis? m = some axis) : m.desc = ("(J)I" : Text) := by
  rw [← unpackAxis?_get hm]
  exact h.unpack axis

/-- A method of another type takes no axis out. -/
theorem Shaped.unpackAxis?_eq_none {f : MethodType}
    (hf : MethodType.parse m.desc = .ok f) (hne : f ≠ ⟨[.long], .int⟩) : cat.unpackAxis? m = none := by
  cases hm : cat.unpackAxis? m with
  | none => rfl
  | some axis =>
    rw [h.unpackAxis?_desc hm, parse_unpackDesc, Except.ok.injEq] at hf
    exact absurd hf.symm hne

/-- The descriptor of what packs. -/
theorem Shaped.pack_desc (he : cat.lookup m = some e) (hp : e.pack = true) : m.desc = ("(III)J" : Text) := by
  obtain ⟨rfl, hmem⟩ := lookup_key he
  exact ((h.entries e hmem).pack hp).2.2

/-- The descriptor of what gives a part of a result. -/
theorem Shaped.accessor_desc {axes : AxisMembers}
    (he : cat.lookup m = some e) (ha : e.axes = some axes) (axis : Axis) : (axes.get axis).desc = ("()I" : Text) :=
  ((h.entries e (lookup_key he).2).axes axes ha).2.2 axis

/-- So has the accessor of an entry. -/
theorem Shaped.axisMember_desc (he : cat.lookup m = some e) (haxes : e.axes.isSome = true) (axis : Axis) :
    (e.axisMember axis).desc = ("()I" : Text) := by
  obtain ⟨axes, ha⟩ := Option.isSome_iff_exists.mp haxes
  rw [Entry.axisMember_eq ha]
  exact h.accessor_desc he ha axis

/-- What packs takes no axis out. -/
theorem Shaped.not_unpack_of_pack (he : cat.lookup m = some e) (hp : e.pack = true) : cat.unpackAxis? m = none :=
  h.unpackAxis?_eq_none (h.pack_desc he hp ▸ parse_packDesc) (by decide)

/-- What packs moves no coordinate. -/
theorem Shaped.not_offset_of_pack (he : cat.lookup m = some e)
    (hp : e.pack = true) : cat.offset.filter (fun o => o.method = m) = none := by
  rw [Option.filter_eq_none_iff]
  intro o ho hm
  rw [decide_eq_true_eq] at hm
  obtain ⟨f, t, hf, hparams, -⟩ := (h.offset o ho).type
  rw [hm, h.pack_desc he hp, parse_packDesc, Except.ok.injEq] at hf
  rw [← hf] at hparams
  simp at hparams

/-- An accessor moves no coordinate. -/
theorem Shaped.not_isOffset_of_accessor (hm : m.desc = ("()I" : Text)) : cat.isOffset m = false := by
  rw [isOffset]
  cases ho : cat.offset with
  | none => rfl
  | some o =>
    rw [decide_eq_false_iff_not]
    rintro rfl
    obtain ⟨f, t, hf, hparams, -⟩ := (h.offset o ho).type
    rw [hm, parse_accessorDesc, Except.ok.injEq] at hf
    rw [← hf] at hparams
    simp at hparams

/-- An accessor has no accessors. -/
theorem Shaped.not_axes_of_accessor (hm : m.desc = ("()I" : Text)) :
    (cat.lookup m).bind Entry.axes = none := by
  cases he : cat.lookup m with
  | none => rfl
  | some e =>
    obtain ⟨hkey, hmem⟩ := lookup_key he
    cases ha : e.axes with
    | none => exact ha
    | some axes =>
      obtain ⟨f, g, hf, -, -, hlong, -⟩ := (h.entries e hmem).type
      have hresult := hlong ((h.entries e hmem).axes axes ha).1
      rw [hkey, hm, parse_accessorDesc, Except.ok.injEq] at hf
      rw [← hf] at hresult
      exact absurd hresult (by decide)

end Catalog

end CoordSplit
