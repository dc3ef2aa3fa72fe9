import CoordSplit.Proofs.Descriptors
import CoordSplit.Proofs.SlotPlaces
import CoordSplit.Proofs.TransformStages

/-!
# Where a transformed method receives its parameters

The descriptor of a method lays out its incoming values one after the other: the receiver of an instance
method in slot 0, then the parameters. A transformed method has a new descriptor, made from the expanded
slots in which a parameter starts, and code whose slots were moved by all expanded slots. The two agree on
a value iff every expanded slot below it is the start of a parameter. Expanded slots below a parameter
that are not (the receiver's, or the second half of a wide parameter) are strays: each of them moves the
code one slot past the value.
-/

set_option autoImplicit false

namespace CoordSplit

open SlotMap

/-! ## Layouts -/

namespace ValueType

/-- The slots in which values of the given types start, one behind the other from `slot` on. -/
def starts : Int → List ValueType → List Int
  | _, [] => []
  | slot, t :: rest => slot :: starts (slot + t.size) rest

/-- The types with those that start in an expanded slot replaced by three ints. -/
def expandAll (E : IndexSet) : Int → List ValueType → List ValueType
  | _, [] => []
  | slot, t :: rest =>
    if E.contains slot then .int :: .int :: .int :: expandAll E (slot + t.size) rest
    else t :: expandAll E (slot + t.size) rest

/-- The number of values that the value in a slot becomes. -/
def partCount (E : IndexSet) (slot : Int) : Nat := if E.contains slot then 3 else 1

theorem le_of_mem_starts {slot s : Int} {ts : List ValueType} (h : s ∈ starts slot ts) : slot ≤ s := by
  induction ts generalizing slot with
  | nil => simp [starts] at h
  | cons t ts ih =>
    rw [starts, List.mem_cons] at h
    rcases h with rfl | h
    · exact le_refl _
    · have := ih h
      omega

theorem starts_sorted {slot : Int} {ts : List ValueType} (h : ∀ t ∈ ts, t ≠ .void) :
    (starts slot ts).Pairwise (· < ·) := by
  induction ts generalizing slot with
  | nil => exact List.Pairwise.nil
  | cons t ts ih =>
    have hpos := size_pos (h t (by simp))
    rw [starts, List.pairwise_cons]
    refine ⟨?_, ih fun u hu => h u (by simp [hu])⟩
    intro s hs
    have := le_of_mem_starts hs
    omega

/-- The value that starts in slot `s` is delivered, when the types are expanded, behind the slots of the
expanded values before it, each of which takes one slot more. -/
theorem starts_expandAll {E : IndexSet} {slot base s : Int} {ts : List ValueType} {j : Nat}
    (hlong : ∀ (i : Nat) (e : Int) (t : ValueType), (starts slot ts)[i]? = some e → ts[i]? = some t →
      E.contains e = true → t = .long)
    (hs : (starts slot ts)[j]? = some s) :
    (starts base (expandAll E slot ts))[(((starts slot ts).map (partCount E)).take j).sum]? =
      some (base + (s - slot) + ((starts slot ts).take j).countP E.contains) := by
  induction ts generalizing slot base j with
  | nil => simp [starts] at hs
  | cons t ts ih =>
    have hrest := fun base j hj => @ih (slot + t.size) base j
      (fun i e u he hu => hlong (i + 1) e u (by simpa [starts] using he) (by simpa using hu)) hj
    cases j with
    | zero =>
      have hslot : slot = s := by simpa [starts] using hs
      subst hslot
      rw [expandAll]
      split <;> simp [starts]
    | succ j =>
      have hj : (starts (slot + t.size) ts)[j]? = some s := by simpa [starts] using hs
      by_cases he : E.contains slot = true
      · have ht : t = .long := hlong 0 slot t (by simp [starts]) (by simp) he
        subst ht
        have h := hrest (base + (size .int : Nat) + (size .int : Nat) + (size .int : Nat)) j hj
        simp only [starts, expandAll, if_pos he, List.map_cons, List.take_succ_cons, List.sum_cons,
          partCount, List.countP_cons_of_pos he]
        rw [show 3 + (((starts (slot + (size .long : Nat)) ts).map (partCount E)).take j).sum =
          (((starts (slot + (size .long : Nat)) ts).map (partCount E)).take j).sum + 1 + 1 + 1 by omega]
        simp only [List.getElem?_cons_succ]
        simp only [size, Prim.size] at h ⊢
        rw [h]
        congr 1
        push_cast
        omega
      · have h := hrest (base + t.size) j hj
        simp only [starts, expandAll, if_neg he, List.map_cons, List.take_succ_cons, List.sum_cons,
          partCount, List.countP_cons_of_neg he]
        rw [show 1 + (((starts (slot + t.size) ts).map (partCount E)).take j).sum =
          (((starts (slot + t.size) ts).map (partCount E)).take j).sum + 1 by omega]
        rw [List.getElem?_cons_succ, h]
        congr 1
        omega

end ValueType

/-! ## The new descriptor -/

namespace MethodType

/-- An index below all positions is never met. -/
theorem splitParams_cons_of_lt {k : Int} {indices : List Int} {i : Nat} {ts : List ValueType}
    (h : k < i) : splitParams (k :: indices) i ts = splitParams indices i ts := by
  induction ts generalizing i with
  | nil => rfl
  | cons t ts ih =>
    have hne : ((i : Int) == k) = false := by
      rw [beq_eq_false_iff_ne]
      omega
    simp only [splitParams, List.contains_cons, hne, Bool.false_or, ih (show k < (i + 1 : Nat) by omega)]

theorem split_params {f g : MethodType} {indices : List Int} (h : f.split indices = .ok g) :
    g.params = splitParams indices 0 f.params := by
  rw [MethodType.split] at h
  obtain ⟨-, -, h⟩ := except_bind_ok.mp h
  rw [← Except.ok.inj h]

end MethodType

namespace Method

open ValueType

variable {m : Method}

/-- What the indices of the expanded parameters say: splitting there is expanding every parameter that
starts in an expanded slot, and all of those are longs. -/
theorem expandedParams_ok {s : SlotMap} {i : Nat} {slot : Int} {ts : List ValueType} {indices : List Int}
    (h : expandedParams s i slot ts = .ok indices) :
    (∀ k ∈ indices, (i : Int) ≤ k) ∧
    MethodType.splitParams indices i ts = expandAll s.expanded slot ts ∧
    ∀ (j : Nat) (e : Int) (t : ValueType), (starts slot ts)[j]? = some e → ts[j]? = some t →
      s.expanded.contains e = true → t = .long := by
  induction ts generalizing i slot indices with
  | nil =>
    simp only [expandedParams, Except.ok.injEq] at h
    subst h
    simp [MethodType.splitParams, expandAll, starts]
  | cons t ts ih =>
    rw [expandedParams, isExpanded] at h
    by_cases he : s.expanded.contains slot = true
    · rw [if_pos he] at h
      by_cases ht : t = .long
      · rw [if_pos ht] at h
        cases hrest : expandedParams s (i + 1) (slot + t.size) ts with
        | error e => simp [hrest, Except.map] at h
        | ok rest =>
          simp only [hrest, Except.map, Except.ok.injEq] at h
          subst h
          obtain ⟨hle, hsplit, hlong⟩ := ih hrest
          refine ⟨?_, ?_, ?_⟩
          · intro k hk
            rcases List.mem_cons.mp hk with rfl | hk
            · exact le_refl _
            · have := hle k hk
              omega
          · rw [MethodType.splitParams, if_pos (by simp), expandAll, if_pos he,
              MethodType.splitParams_cons_of_lt (by omega), hsplit]
          · intro j e u hj hu hmem
            cases j with
            | zero =>
              simp only [List.getElem?_cons_zero, Option.some.injEq] at hu
              rw [← hu, ht]
            | succ j => exact hlong j e u (by simpa [starts] using hj) (by simpa using hu) hmem
      · rw [if_neg ht] at h
        simp at h
    · rw [if_neg he] at h
      obtain ⟨hle, hsplit, hlong⟩ := ih h
      have hnot : (i : Int) ∉ indices := by
        intro hi
        have := hle _ hi
        omega
      refine ⟨?_, ?_, ?_⟩
      · intro k hk
        have := hle k hk
        omega
      · rw [MethodType.splitParams, if_neg (by simpa using hnot), expandAll, if_neg he, hsplit]
      · intro j e u hj hu hmem
        cases j with
        | zero =>
          simp only [starts, List.getElem?_cons_zero, Option.some.injEq] at hj
          rw [hj] at he
          exact absurd hmem he
        | succ j => exact hlong j e u (by simpa [starts] using hj) (by simpa using hu) hmem

/-! ## Incoming values -/

/-- The slot of the first parameter. -/
def firstParam (m : Method) : Int := if m.isStatic then 0 else 1

/-- The slots in which the parameters start. -/
def paramStarts (m : Method) (f : MethodType) : List Int := starts m.firstParam f.params

/-- The slots in which the incoming values start: the receiver's, unless the method is static, and those
of the parameters. -/
def incoming (m : Method) (f : MethodType) : List Int :=
  (if m.isStatic then [] else [0]) ++ m.paramStarts f

/-- The number of values as which the first `j` incoming values are passed once the parameters that start
in an expanded slot are passed as three ints. -/
def partsBefore (m : Method) (f : MethodType) (E : IndexSet) (j : Nat) : Nat :=
  (((if m.isStatic then [] else [1]) ++ (m.paramStarts f).map (partCount E)).take j).sum

/-- The expanded slots below `s` in which no parameter starts. -/
def straysBelow (m : Method) (f : MethodType) (E : IndexSet) (s : Int) : List Nat :=
  E.toList.filter fun (e : Nat) => (e : Int) < s ∧ (e : Int) ∉ m.paramStarts f

variable {s : Int} {f : MethodType} {j : Nat}

theorem paramStarts_sorted (h : m.type = .ok f) : (m.paramStarts f).Pairwise (· < ·) := by
  apply starts_sorted
  intro t ht
  exact ((MethodType.writable_of_parse h).params t ht).2

/-- In an ascending list, the elements before a position are those that are smaller. -/
theorem mem_take_of_sorted {l : List Int} (hl : l.Pairwise (· < ·)) {x : Int}
    (hs : l[j]? = some s) : x ∈ l.take j ↔ x ∈ l ∧ x < s := by
  induction l generalizing j with
  | nil => simp at hs
  | cons y l ih =>
    rw [List.pairwise_cons] at hl
    cases j with
    | zero =>
      simp only [List.getElem?_cons_zero, Option.some.injEq] at hs
      subst hs
      simp only [List.take_zero, List.not_mem_nil, false_iff, not_and, not_lt]
      intro hx
      rcases List.mem_cons.mp hx with rfl | hx
      · exact le_refl _
      · exact le_of_lt (hl.1 x hx)
    | succ j =>
      simp only [List.getElem?_cons_succ] at hs
      have hy : y < s := hl.1 s (List.mem_of_getElem? hs)
      rw [List.take_succ_cons, List.mem_cons, List.mem_cons, ih hl.2 hs]
      constructor
      · rintro (rfl | ⟨hx, hlt⟩)
        exacts [⟨.inl rfl, hy⟩, ⟨.inr hx, hlt⟩]
      · rintro ⟨rfl | hx, hlt⟩
        exacts [.inl rfl, .inr ⟨hx, hlt⟩]

/-- The expanded slots below a parameter are the expanded parameters before it and the strays. -/
theorem countBelow_eq_add_strays (h : m.type = .ok f) (E : IndexSet) (hs : (m.paramStarts f)[j]? = some s) :
    E.countBelow s = ((m.paramStarts f).take j).countP E.contains + (m.straysBelow f E s).length := by
  have hsorted := paramStarts_sorted h
  -- both lists are without repetition and have the expanded parameters before `s` as members
  have hperm : ((E.toList.filter fun (e : Nat) => (e : Int) < s ∧ (e : Int) ∈ m.paramStarts f).map
      fun (e : Nat) => (e : Int)).Perm (((m.paramStarts f).take j).filter E.contains) := by
    rw [List.perm_ext_iff_of_nodup]
    · intro x
      simp only [List.mem_map, List.mem_filter, IndexSet.mem_toList, decide_eq_true_eq,
        mem_take_of_sorted hsorted hs, IndexSet.contains_iff]
      constructor
      · rintro ⟨e, ⟨he, hlt, hmem⟩, rfl⟩
        exact ⟨⟨hmem, hlt⟩, e, rfl, he⟩
      · rintro ⟨⟨hmem, hlt⟩, e, rfl, he⟩
        exact ⟨e, ⟨he, hlt, hmem⟩, rfl⟩
    · exact (E.toList_nodup.filter _).map fun a b hab => by omega
    · exact ((hsorted.sublist (List.take_sublist j _)).filter _).imp fun hlt => ne_of_lt hlt
  have hlen := hperm.length_eq
  rw [List.length_map, ← List.countP_eq_length_filter, ← List.countP_eq_length_filter] at hlen
  rw [← hlen, straysBelow, ← List.countP_eq_length_filter, IndexSet.countBelow,
    List.countP_eq_countP_filter_add E.toList _ fun (e : Nat) => decide ((e : Int) ∈ m.paramStarts f),
    List.countP_filter, List.countP_filter]
  congr 1 <;> (congr 1; funext e; simp)

theorem straysBelow_zero (f : MethodType) (E : IndexSet) : m.straysBelow f E 0 = [] := by
  rw [straysBelow, List.filter_eq_nil_iff]
  intro e _
  simp only [decide_eq_true_eq, not_and]
  omega

/-- The layout of the new descriptor, when it is that of the expanded parameters: each incoming value
arrives one slot below its place for each stray below it. -/
theorem incoming_expandAll {new : Method} {g : MethodType} {E : IndexSet} (hf : m.type = .ok f)
    (hstatic : new.isStatic = m.isStatic) (hg : g.params = expandAll E m.firstParam f.params)
    (hlong : ∀ (i : Nat) (e : Int) (t : ValueType), (m.paramStarts f)[i]? = some e → f.params[i]? = some t →
      E.contains e = true → t = .long) (hs : (m.incoming f)[j]? = some s) :
    (new.incoming g)[m.partsBefore f E j]? = some (place E s - (m.straysBelow f E s).length) := by
  have hparam : ∀ i, (m.paramStarts f)[i]? = some s →
      (new.paramStarts g)[(((m.paramStarts f).map (partCount E)).take i).sum]? =
        some (place E s - (m.straysBelow f E s).length) := by
    intro i hi
    have hbase : new.firstParam = m.firstParam := by simp only [firstParam, hstatic]
    have hcount := countBelow_eq_add_strays hf E hi
    have h := @starts_expandAll E m.firstParam m.firstParam s f.params i hlong hi
    rw [paramStarts, hbase, hg, paramStarts, h, place]
    congr 1
    rw [paramStarts] at hcount
    omega
  rw [incoming, partsBefore]
  rw [incoming] at hs
  rw [hstatic]
  cases hst : m.isStatic with
  | true =>
    simp only [hst, if_true, List.nil_append] at hs ⊢
    exact hparam j hs
  | false =>
    simp only [hst, Bool.false_eq_true, if_false, List.singleton_append] at hs ⊢
    cases j with
    | zero =>
      simp only [List.getElem?_cons_zero, Option.some.injEq] at hs
      subst hs
      simp [straysBelow_zero, place_of_nonpos]
    | succ j =>
      rw [List.getElem?_cons_succ] at hs
      rw [List.take_succ_cons, List.sum_cons, Nat.add_comm, List.getElem?_cons_succ]
      exact hparam j hs

/-- A transformed method receives every incoming value of the method that it was made from; its slot is the
place of the original slot less one for each stray below it. So the layouts agree iff there is no stray
below an incoming value. A place that is a slot is where the code looks for the value. -/
theorem transform_incoming {cat : Catalog} {owner suffix : Text} {m new : Method} {t : Transformed}
    (h : m.transform cat owner suffix = .ok t) (hnew : t.method = some new) :
    ∃ (E : IndexSet) (f g : MethodType), t.expanded = E.toList ∧ m.type = .ok f ∧ new.type = .ok g ∧
      new.isStatic = m.isStatic ∧
      (∀ (j : Nat) (s : Int), (m.incoming f)[j]? = some s →
        (new.incoming g)[m.partsBefore f E j]? =
          some (SlotMap.place E s - (m.straysBelow f E s).length)) ∧
      ((∀ (j : Nat) (s : Int), (m.incoming f)[j]? = some s →
          (new.incoming g)[m.partsBefore f E j]? = some (SlotMap.place E s)) ↔
        ∀ s ∈ m.incoming f, ∀ e ∈ E, (e : Int) < s → (e : Int) ∈ m.paramStarts f) ∧
      ∀ s, SlotMap.place E s < Slot.limit → (SlotMap.ofSlots E).map s = SlotMap.place E s := by
  obtain ⟨a, e, r, -, -, -, hexp, hsig⟩ := transformSteps_some (transform_ok.mp h) hnew
  obtain ⟨hdesc, -, -, haccess⟩ := withSignature_ok hsig
  obtain ⟨f, g, indices, hf, hindices, hsplit, hgdesc⟩ := expandedDesc_ok hdesc
  obtain ⟨-, hparams, hlong⟩ := expandedParams_ok hindices
  have hstatic : new.isStatic = m.isStatic := by rw [isStatic, haccess]; rfl
  have hg : new.type = .ok g := by
    rw [type, hgdesc]
    exact MethodType.parse_desc ((MethodType.writable_of_parse hf).split hsplit)
  have hdelivered : ∀ (j : Nat) (s : Int), (m.incoming f)[j]? = some s →
      (new.incoming g)[m.partsBefore f e.slots j]? =
        some (place e.slots s - (m.straysBelow f e.slots s).length) := by
    intro j s hs
    exact incoming_expandAll hf hstatic ((MethodType.split_params hsplit).trans hparams) hlong hs
  refine ⟨e.slots, f, g, hexp, hf, hg, hstatic, hdelivered, ?_, fun _ => map_eq_place⟩
  have hstrays : ∀ s : Int, (m.straysBelow f e.slots s).length = 0 ↔
      ∀ k ∈ e.slots, (k : Int) < s → (k : Int) ∈ m.paramStarts f := by
    intro s
    rw [List.length_eq_zero_iff, straysBelow, List.filter_eq_nil_iff]
    simp only [IndexSet.mem_toList, IndexSet.mem_iff, decide_eq_true_eq, not_and, not_not]
  constructor
  · intro hagree s hs
    obtain ⟨j, hj⟩ := List.mem_iff_getElem?.mp hs
    rw [← hstrays]
    have h1 := hdelivered j s hj
    rw [hagree j s hj, Option.some.injEq] at h1
    omega
  · intro hfree j s hj
    rw [hdelivered j s hj, (hstrays s).mpr (hfree s (List.mem_of_getElem? hj))]
    simp

/-! ## A method whose parameters drift

The code stores a coordinate over the receiver, so slot 0 is expanded. No parameter starts there: the
descriptor stays as it is, while the code looks for the second parameter one slot too high. -/

/-- A catalog with a call that packs a coordinate and one that takes one. -/
def driftCatalog : Catalog :=
  ⟨[⟨⟨"P", "pack", "(III)J"⟩, true, [], true, ⟨"P", "pack", "(III)J"⟩, none, true⟩,
    ⟨⟨"Q", "g", "(J)V"⟩, false, [0], true, ⟨"Q", "g", "(III)V"⟩, none, false⟩],
   ⟨⟨"P", "x", "(J)I"⟩, ⟨"P", "y", "(J)I"⟩, ⟨"P", "z", "(J)I"⟩⟩, none, ⟨Int64.maxValue, Int32.maxValue⟩⟩

/-- An instance method that keeps a coordinate in slot 0 and then loads its second parameter. -/
def drifting : Method :=
  ⟨"m", "(II)V", .none,
    .ofList [.plain .iconst0, .plain .iconst0, .plain .iconst0,
      .call .invokestatic ⟨"P", "pack", "(III)J"⟩ false, .var .lstore 0, .var .lload 0,
      .call .invokestatic ⟨"Q", "g", "(J)V"⟩ false, .var .iload 2, .plain .pop, .plain .returnVoid],
    [], [], 6, 3⟩

theorem drifting_transform : ∃ t new, drifting.transform driftCatalog "C" "" = .ok t ∧
    t.method = some new ∧ t.expanded = [0] := by
  have h : ((drifting.transform driftCatalog "C" "").toOption.map fun t =>
      (t.method.isSome, t.expanded)) = some (true, [0]) := by decide +kernel
  obtain ⟨t, ht, h⟩ := except_ok_of_map h
  obtain ⟨hsome, hexp⟩ := Prod.mk.inj h
  obtain ⟨new, hnew⟩ := Option.isSome_iff_exists.mp hsome
  exact ⟨t, new, ht, hnew, hexp⟩

/-- The second parameter arrives in slot 2, and the code looks for it in slot 3. -/
theorem transform_incoming_drifting : ∃ t new E f g,
    drifting.transform driftCatalog "C" "" = .ok t ∧ t.method = some new ∧ t.expanded = E.toList ∧
    drifting.type = .ok f ∧ new.type = .ok g ∧ (drifting.incoming f)[2]? = some 2 ∧
    (new.incoming g)[drifting.partsBefore f E 2]? = some 2 ∧ (SlotMap.ofSlots E).map 2 = 3 := by
  obtain ⟨t, new, ht, hnew, hexp⟩ := drifting_transform
  obtain ⟨E, f, g, hE, hf, hg, -, hslots, -, hmap⟩ := transform_incoming ht hnew
  have hf' : f = ⟨[.int, .int], .void⟩ := by
    have hparse : drifting.type.toOption = some ⟨[.int, .int], .void⟩ := by decide +kernel
    rw [hf] at hparse
    exact Option.some.inj hparse
  have hincoming : (drifting.incoming f)[2]? = some 2 := by
    rw [hf']
    decide
  have hlist : E.toList = [0] := hE.symm.trans hexp
  have hplace : place E 2 = 3 := by simp [place, IndexSet.countBelow, hlist]
  have hlimit : place E 2 < Slot.limit := by
    rw [hplace]
    decide
  refine ⟨t, new, E, f, g, ht, hnew, hE, hf, hg, hincoming, ?_, (hmap 2 hlimit).trans hplace⟩
  have hstrays : (drifting.straysBelow f E 2).length = 1 := by
    rw [straysBelow, hlist, hf']
    decide
  rw [hslots 2 2 hincoming, hplace, hstrays]
  rfl

end Method

end CoordSplit
