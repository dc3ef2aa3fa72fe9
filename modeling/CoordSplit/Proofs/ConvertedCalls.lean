import CoordSplit.Proofs.CallEdits

/-!
# What a converted call calls

A call that is converted in place keeps its opcode and takes three ints for each coordinate that it took
(`ExpansionContext.InPlace`). The coordinates are found in two ways, by what the catalog says of the method and by the
slots that the arguments come from. A call that has an entry is refused if the two disagree, since the descriptor that
results must be the one that the entry gives, and no other choice of parameters to split leads there
(`MethodType.mem_iff_of_split`).
-/

set_option autoImplicit false

namespace CoordSplit

/-! ## Descriptors -/

namespace MethodType

/-- The method type with three ints for each parameter whose index is asked for. -/
def inParts (t : MethodType) (asked : Nat → Bool) : MethodType :=
  { t with params := t.params.zipIdx.flatMap fun p => if asked p.2 then [.int, .int, .int] else [p.1] }

theorem splitParams_eq_flatMap (indices : List Int) (i : Nat) (ts : List ValueType) :
    splitParams indices i ts =
      (ts.zipIdx i).flatMap fun p => if indices.contains (p.2 : Int) then [.int, .int, .int] else [p.1] := by
  induction ts generalizing i with
  | nil => rfl
  | cons t ts ih =>
    rw [splitParams, ih, List.zipIdx_cons, List.flatMap_cons]
    split <;> rfl

theorem split_eq_inParts {t g : MethodType} {indices : List Int} (h : t.split indices = .ok g) :
    g = t.inParts fun i => indices.contains (i : Int) := by
  obtain ⟨-, -, hg⟩ := except_bind_ok.mp h
  rw [← Except.ok.inj hg, inParts, splitParams_eq_flatMap]

/-- Which longs were split can be told from the parameters that are left. -/
theorem mem_iff_of_splitParams {I J : List Int} {ts : List ValueType} {i : Nat}
    (hlong : ∀ (k : Nat) (t : ValueType), ((i + k : Nat) : Int) ∈ I ∨ ((i + k : Nat) : Int) ∈ J → ts[k]? = some t →
      t = .long)
    (h : splitParams I i ts = splitParams J i ts) {k : Nat} (hk : k < ts.length) :
    ((i + k : Nat) : Int) ∈ I ↔ ((i + k : Nat) : Int) ∈ J := by
  induction ts generalizing i k with
  | nil => simp at hk
  | cons t ts ih =>
    have hfirst : (i : Int) ∈ I ∨ (i : Int) ∈ J → t ≠ .int := by
      intro hmem
      rw [hlong 0 t (by simpa using hmem) rfl]
      decide
    have hrest : splitParams I (i + 1) ts = splitParams J (i + 1) ts ∧ ((i : Int) ∈ I ↔ (i : Int) ∈ J) := by
      simp only [splitParams, List.contains_iff_mem] at h
      split at h
      · next hI =>
        split at h
        · next hJ => exact ⟨by simpa using h, iff_of_true hI hJ⟩
        · exact absurd (List.cons.inj h).1.symm (hfirst (.inl hI))
      · next hI =>
        split at h
        · next hJ => exact absurd (List.cons.inj h).1 (hfirst (.inr hJ))
        · next hJ => exact ⟨(List.cons.inj h).2, iff_of_false hI hJ⟩
    cases k with
    | zero => simpa using hrest.2
    | succ k =>
      rw [show i + (k + 1) = i + 1 + k by omega]
      refine ih (fun j u hmem hu => ?_) hrest.1 (Nat.lt_of_succ_lt_succ hk)
      apply hlong (j + 1) u _ (by simpa using hu)
      rwa [show i + (j + 1) = i + 1 + j by omega]

/-- If splitting leads to the same type, the same parameters were split. -/
theorem mem_iff_of_split {t g : MethodType} {I J : List Int} (hI : t.split I = .ok g) (hJ : t.split J = .ok g)
    (i : Int) : i ∈ I ↔ i ∈ J := by
  have hlong : ∀ (k : Nat) (u : ValueType), ((0 + k : Nat) : Int) ∈ I ∨ ((0 + k : Nat) : Int) ∈ J →
      t.params[k]? = some u → u = .long := by
    intro k u hmem hu
    obtain ⟨j, hj, hlong⟩ := hmem.elim (long_of_split hI) (long_of_split hJ)
    rw [Nat.zero_add, Int.natCast_inj] at hj
    rw [hj, hlong] at hu
    exact (Option.some.inj hu).symm
  have hparams : splitParams I 0 t.params = splitParams J 0 t.params :=
    (split_params hI).symm.trans (split_params hJ)
  have hiff : ∀ k : Nat, k < t.params.length → ((k : Int) ∈ I ↔ (k : Int) ∈ J) := by
    intro k hk
    simpa using mem_iff_of_splitParams hlong hparams hk
  constructor
  · intro hi
    obtain ⟨k, rfl, hk⟩ := long_of_split hI hi
    exact (hiff k (List.getElem?_eq_some_iff.mp hk).1).mp hi
  · intro hi
    obtain ⟨k, rfl, hk⟩ := long_of_split hJ hi
    exact (hiff k (List.getElem?_eq_some_iff.mp hk).1).mpr hi

end MethodType

/-! ## Conversion in place -/

/-- The number of values that a call takes before its parameters. -/
def Opcode.receivers (op : Opcode) : Nat := if op.hasReceiver then 1 else 0

/-- The entry's positions count the receiver if calls have one. -/
theorem Entry.mem_positions {e : Entry} {op : Opcode} (h : (e.isStatic == op.hasReceiver) = false) (p : Int) :
    p ∈ e.positions ↔ p - op.receivers ∈ e.packedArgs := by
  have hstatic : e.isStatic = !op.hasReceiver := by
    cases hs : e.isStatic <;> cases ho : op.hasReceiver <;> simp_all
  rw [positions, List.mem_map, Opcode.receivers, hstatic]
  cases op.hasReceiver with
  | false => simp
  | true =>
    constructor
    · rintro ⟨i, hi, rfl⟩
      simpa using hi
    · intro hp
      exact ⟨_, hp, by simp⟩

namespace ExpansionContext

variable {c : ExpansionContext} {a : Analysis} {expanded : IndexSet} {code d : Code} {id : InsnId} {op : Opcode}
  {m target : Member} {itf : Bool} {f : Frame} {packed : List (Int × Value)} {args : List Value}

/-- The call `id` of `m` becomes one of `target`, which takes three ints for each of the coordinates that are at the
given positions among `args`. What pushed those is changed to push their parts. -/
structure InPlace (c : ExpansionContext) (code d : Code) (id : InsnId) (op : Opcode) (m target : Member) (itf : Bool)
    (args : List Value) (positions : List Nat) : Prop where
  ascending : positions.Pairwise (· < ·)
  type : ∃ t, MethodType.parse m.desc = .ok t ∧ t.desc = m.desc ∧
    (∀ p ∈ positions, op.receivers ≤ p ∧ t.params[p - op.receivers]? = some .long) ∧
    target.desc = (t.inParts fun i => i + op.receivers ∈ positions).desc
  changed : ∃ d₁, (positions.filterMap (args[·]?)).foldlM (c.convertValue none) code = .ok d₁ ∧
    d₁.set id (.call op target itf) = .ok d

/-- The positions at which the catalog knows coordinates among what a call takes. -/
def known (c : ExpansionContext) (m : Member) : List Int := ((c.catalog.lookup m).map Entry.positions).getD []

/-- The positions of the coordinates among some arguments. -/
def takenPositions (expanded : IndexSet) (known : List Int) (args : List Value) : List Nat :=
  (args.zipIdx.filter fun p => known.contains (p.2 : Int) || p.1.isPacked expanded).map Prod.snd

theorem takenArgs_eq (receivers : Nat) (known : List Int) (k : Nat) (args : List Value) :
    takenArgs expanded receivers known k args =
      ((args.zipIdx k).filter fun p => known.contains (p.2 : Int) || p.1.isPacked expanded).map
        fun p => ((p.2 : Int) - receivers, p.1) := by
  induction args generalizing k with
  | nil => rfl
  | cons v rest ih =>
    rw [takenArgs, ih, List.zipIdx_cons, List.filter_cons]
    split <;> rfl

theorem mem_takenPositions {known : List Int} {p : Nat} :
    p ∈ takenPositions expanded known args ↔
      ∃ v, args[p]? = some v ∧ (known.contains (p : Int) || v.isPacked expanded) = true := by
  simp [takenPositions, List.mk_mem_zipIdx_iff_getElem?]

theorem ascending_takenPositions (expanded : IndexSet) (known : List Int) (args : List Value) :
    (takenPositions expanded known args).Pairwise (· < ·) := by
  have hall : (args.zipIdx.map Prod.snd).Pairwise (· < ·) := by
    rw [List.zipIdx_map_snd]
    exact List.pairwise_lt_range'
  exact hall.sublist (List.filter_sublist.map Prod.snd)

theorem filterMap_takenPositions (receivers : Nat) (known : List Int) (args : List Value) :
    (takenPositions expanded known args).filterMap (args[·]?) =
      (takenArgs expanded receivers known 0 args).map Prod.snd := by
  have hvalue : ∀ p ∈ args.zipIdx.filter (fun p => known.contains (p.2 : Int) || p.1.isPacked expanded),
      args[p.2]? = some p.1 := by
    intro p hp
    exact List.mem_zipIdx_iff_getElem?.mp (List.mem_filter.mp hp).1
  rw [takenPositions, List.filterMap_map, takenArgs_eq, List.map_map]
  exact (List.filterMap_congr hvalue).trans (congrFun List.filterMap_eq_map _)

theorem takenArgs_indices (receivers : Nat) (known : List Int) (args : List Value) :
    (takenArgs expanded receivers known 0 args).map Prod.fst =
      (takenPositions expanded known args).map fun (p : Nat) => (p : Int) - receivers := by
  rw [takenArgs_eq, takenPositions, List.map_map, List.map_map]
  rfl

/-- What is called in place of a method. -/
theorem replacementOf_target {entry : Option Entry} {indices : List Int}
    (h : replacementOf id m entry indices = .ok target) :
    (∀ e, entry = some e → target = e.replacement) ∧
      (entry = none → target.owner = m.owner ∧ target.name = m.name) := by
  rw [replacementOf] at h
  split at h
  · cases h
  · split at h
    · cases h
    · split at h
      · obtain rfl := Except.ok.inj h
        refine ⟨fun e he => ?_, fun _ => ⟨rfl, rfl⟩⟩
        cases he
      · next e =>
        split at h
        · cases h
        · next hdesc =>
          rw [not_not] at hdesc
          refine ⟨fun e' he' => ?_, fun hnone => ?_⟩
          · obtain rfl := Option.some.inj he'
            rw [← Except.ok.inj h, hdesc]
          · cases hnone

variable (h : c.Accepts a expanded code id op m f packed target)

include h

/-- The indices of the parameters that are split tell the positions of the coordinates. -/
theorem Accepts.indices (hargs : f.callArgs op m = .ok args) :
    packed = takenArgs expanded op.receivers (c.known m) 0 args ∧
      packed.map Prod.fst = (takenPositions expanded (c.known m) args).map fun (p : Nat) => (p : Int) - op.receivers := by
  obtain ⟨args', hargs', hpacked⟩ := h.args
  obtain rfl := Except.ok.inj (hargs.symm.trans hargs')
  have htaken : packed = takenArgs expanded op.receivers (c.known m) 0 args := (packedArgs_eq hpacked).1
  exact ⟨htaken, by rw [htaken, takenArgs_indices]⟩

/-- A call that passes its checks is converted in place. -/
theorem Accepts.inPlace (hargs : f.callArgs op m = .ok args)
    (hconvert : c.convertCall a expanded code id op m itf f = .ok (some d)) :
    c.InPlace code d id op m target itf args (takenPositions expanded (c.known m) args) := by
  obtain ⟨htaken, hindices⟩ := h.indices hargs
  obtain ⟨t, g, ht, hsplit, htarget⟩ := replacementOf_ok h.target
  refine ⟨ascending_takenPositions _ _ _, ⟨t, ht, MethodType.desc_of_parse ht, ?_, ?_⟩, ?_⟩
  · intro p hp
    have hmem : (p : Int) - op.receivers ∈ packed.map Prod.fst := hindices ▸ List.mem_map_of_mem hp
    obtain ⟨k, hk, hlong⟩ := MethodType.long_of_split hsplit hmem
    obtain rfl : p = k + op.receivers := by omega
    exact ⟨Nat.le_add_left _ _, by rwa [Nat.add_sub_cancel]⟩
  · rw [htarget, MethodType.split_eq_inParts hsplit]
    congr 2
    funext i
    rw [Bool.eq_iff_iff, List.contains_iff_mem, decide_eq_true_eq, hindices, List.mem_map]
    constructor
    · rintro ⟨p, hp, hpi⟩
      rwa [show i + op.receivers = p by omega]
    · intro hi
      exact ⟨_, hi, by push_cast; ring⟩
  · rw [convertCall_of_accepts h, ← splitAll_producersOf] at hconvert
    obtain ⟨d₁, hparts, hconvert⟩ := except_bind_ok.mp hconvert
    obtain ⟨d₂, hset, hconvert⟩ := except_bind_ok.mp hconvert
    obtain rfl : d₂ = d := Option.some.inj (Except.ok.inj hconvert)
    refine ⟨d₁, ?_, Outcome.ofFault_ok.mp hset⟩
    rw [filterMap_takenPositions op.receivers, List.foldlM_map]
    rwa [htaken] at hparts

/-- The coordinates of a call that has an entry are where the entry says. -/
theorem Accepts.mem_positions (hcat : c.catalog.Shaped) {e : Entry} (he : c.catalog.lookup m = some e) (p : Int) :
    p ∈ e.positions ↔ p - op.receivers ∈ packed.map Prod.fst := by
  obtain ⟨hkey, hmem⟩ := Catalog.lookup_key he
  obtain ⟨t, g, ht, hsplit, htarget⟩ := replacementOf_ok h.target
  obtain ⟨t', g', ht', hsplit', hreplacement, -⟩ := (hcat.entries e hmem).type
  rw [hkey] at ht'
  obtain rfl := Except.ok.inj (ht.symm.trans ht')
  -- the descriptors are equal, and each is read back as its type
  have hsame : g = g' := by
    have hdesc : g.desc = g'.desc := by
      rw [← htarget, ← hreplacement, (replacementOf_target h.target).1 e he]
    have hread := MethodType.parse_desc ((MethodType.writable_of_parse ht).split hsplit)
    rw [hdesc, MethodType.parse_desc ((MethodType.writable_of_parse ht).split hsplit')] at hread
    exact (Except.ok.inj hread).symm
  rw [Entry.mem_positions (h.entry e he).2]
  exact (MethodType.mem_iff_of_split hsplit (hsame ▸ hsplit') _).symm

end ExpansionContext

theorem Code.get?_of_set {c d : Code} {id : InsnId} {x : Insn} (h : c.set id x = .ok d) : d.get? id = some x := by
  rw [set] at h
  split at h
  · next n hn =>
    obtain rfl := Except.ok.inj h
    rw [get?, node?_modify, if_pos rfl, hn]
    rfl
  · cases h

/-! ## Runs -/

namespace CallRun

variable {c : ExpansionContext} {a : Analysis} {expanded : IndexSet} {r r₁ r₂ : CallRun}
  {done : List ((InsnId × Insn) × Frame)} {id : InsnId} {op : Opcode} {m : Member} {itf : Bool} {f : Frame} {x : Insn}

theorem convertAll_append (ls : List ((InsnId × Insn) × Frame)) (h : (convertAll c a expanded done r).failed = none) :
    convertAll c a expanded (done ++ ls) r = convertAll c a expanded ls (convertAll c a expanded done r) := by
  induction done generalizing r with
  | nil => rfl
  | cons line done ih =>
    rw [List.cons_append, convertAll_cons, convertAll_cons]
    rw [convertAll_cons] at h
    cases hline : r.convertLine c a expanded line with
    | error e => simp [hline] at h
    | ok r' =>
      simp only [hline] at h
      exact ih h

/-- A run that goes on by one call and counts it has converted the call. -/
theorem convertCall_of_count (hdone : convertAll c a expanded done r = r₁) (hfailed : r₁.failed = none)
    (hnext : convertAll c a expanded (done ++ [((id, x), f)]) r = r₂) (hcount : r₂.count = r₁.count + 1)
    (hcall : r₁.code.get? id = some (.call op m itf)) :
    c.convertCall a expanded r₁.code id op m itf f = .ok (some r₂.code) := by
  rw [convertAll_append _ (by rw [hdone]; exact hfailed), hdone, convertAll, hcall] at hnext
  split at hnext
  · next hinsn =>
    split at hinsn
    · obtain ⟨rfl, rfl, rfl⟩ := Insn.call.inj (Option.some.inj hinsn)
      split at hnext
      · rw [← hnext] at hcount
        simp at hcount
      · rw [convertAll] at hnext
        rw [← hnext] at hcount
        simp at hcount
      · next d hd =>
        rw [convertAll] at hnext
        rw [hd, ← hnext]
    · cases hinsn
  · rw [convertAll] at hnext
    rw [← hnext] at hcount
    simp at hcount

/-- A run with a catalog that could be built comes to a call that takes no axis out, and converts it. The call keeps its
opcode and its interface flag. If it has an entry, the coordinates that are taken apart are those at the positions of
the entry, and the method of the entry is called instead. If it has none, they are the arguments that come from
expanded slots, and the call keeps its owner and its name. -/
theorem rewrites_in_place {spec : CatalogSpec} (hcat : spec.build = .ok c.catalog)
    (hdone : convertAll c a expanded done r = r₁) (hfailed : r₁.failed = none)
    (hnext : convertAll c a expanded (done ++ [((id, x), f)]) r = r₂) (hcount : r₂.count = r₁.count + 1)
    (hcall : r₁.code.get? id = some (.call op m itf)) (hunpack : c.catalog.unpackAxis? m = none) :
    ∃ args positions target, f.callArgs op m = .ok args ∧
      c.InPlace r₁.code r₂.code id op m target itf args positions ∧
      r₂.code.get? id = some (.call op target itf) ∧
      (∀ e, c.catalog.lookup m = some e →
        target = e.replacement ∧ ∀ p : Int, p ∈ e.positions ↔ ∃ q ∈ positions, p = (q : Nat)) ∧
      (c.catalog.lookup m = none → target.owner = m.owner ∧ target.name = m.name ∧
        ∀ p, p ∈ positions ↔ ∃ v, args[p]? = some v ∧ v.isPacked expanded = true) := by
  have hconvert := convertCall_of_count hdone hfailed hnext hcount hcall
  obtain ⟨packed, target, haccepts⟩ : ∃ packed target, c.Accepts a expanded r₁.code id op m f packed target := by
    rcases @ExpansionContext.convertCall_cases c r₁.code id a expanded op m itf f with ⟨axis, haxis, -⟩ | haccepts | h |
      ⟨e, h⟩
    · cases hunpack.symm.trans haxis
    · exact haccepts
    · cases h.symm.trans hconvert
    · cases h.symm.trans hconvert
  obtain ⟨args, hargs, -⟩ := haccepts.args
  have hinPlace := haccepts.inPlace hargs hconvert
  obtain ⟨hentry, hnone⟩ := ExpansionContext.replacementOf_target haccepts.target
  refine ⟨args, _, target, hargs, hinPlace, ?_, fun e he => ⟨hentry e he, fun p => ?_⟩, fun hno => ?_⟩
  · obtain ⟨_, -, hset⟩ := hinPlace.changed
    exact Code.get?_of_set hset
  · rw [haccepts.mem_positions (CatalogSpec.build_shaped hcat) he, (haccepts.indices hargs).2, List.mem_map]
    simp only [sub_left_inj, eq_comm]
  · obtain ⟨howner, hname⟩ := hnone hno
    refine ⟨howner, hname, fun p => ?_⟩
    rw [ExpansionContext.mem_takenPositions, ExpansionContext.known, hno]
    rfl

namespace TwoTargets

/-- Of the two methods that the code calls one is known, and has another name. -/
def spec : CatalogSpec where
  unpacking := ["P#x (J)I", "P#y (J)I", "P#z (J)I"]
  methods := [("Q#h (IJ)V", { packedArgs := [1], rename := "R#g" })]

/-- The catalog of the description. -/
def catalog : Catalog :=
  ⟨[⟨⟨"Q", "h", "(IJ)V"⟩, false, [1], false, ⟨"R", "g", "(IIII)V"⟩, none, false⟩],
   ⟨⟨"P", "x", "(J)I"⟩, ⟨"P", "y", "(J)I"⟩, ⟨"P", "z", "(J)I"⟩⟩, none, CatalogSpec.defaultSentinel⟩

/-- The method. -/
def method : Method :=
  ⟨"m", "(LQ;J)V", ⟨8⟩, .ofList [.var .aload 0, .plain .iconst0, .var .lload 1,
    .call .invokevirtual ⟨"Q", "h", "(IJ)V"⟩ false, .var .lload 1, .call .invokestatic ⟨"S", "f", "(J)V"⟩ false,
    .plain .returnVoid], [], [], 4, 3⟩

/-- How far the calls among the first `n` instructions are converted. -/
def run (a : Analysis) (e : Expansion) (n : Nat) : CallRun :=
  convertAll ⟨catalog, .ofSlots e.slots⟩ a e.slots (a.reachable.take n)
    ⟨((SlotMap.ofSlots e.slots).apply method.code).code, 0, none⟩

/-- Instruction `n` is a call that is converted. -/
def counts (a : Analysis) (e : Expansion) (n : Nat) (op : Opcode) (m : Member) : Bool :=
  a.reachable[n]?.any (fun line => line.1.1 = (n : Int)) && (run a e n).failed.isNone &&
    (run a e (n + 1)).count = (run a e n).count + 1 && (run a e n).code.get? n = some (.call op m false)

theorem spec_build : spec.build = .ok catalog := by
  apply except_ok_of_toOption
  simp only [CatalogSpec.build, CatalogSpec.buildEntries, EntrySpec.build, spec, List.mergeSort_singleton]
  decide +kernel

/-- The first call is renamed, and its coordinate is behind the receiver and an int. The second is not known, and its
coordinate comes from the expanded slot. -/
theorem rewrites_in_place_twoTargets : ∃ (a : Analysis) (e : Expansion) (args args' : List Value)
    (positions positions' : List Nat) (target : Member),
    Analysis.ofMethod "C" method = .ok a ∧ Expansion.solve catalog a = .ok e ∧
    ExpansionContext.InPlace ⟨catalog, .ofSlots e.slots⟩ (run a e 3).code (run a e 4).code 3 .invokevirtual
      ⟨"Q", "h", "(IJ)V"⟩ ⟨"R", "g", "(IIII)V"⟩ false args positions ∧
    (∀ p : Int, p = 2 ↔ ∃ q ∈ positions, p = (q : Nat)) ∧
    ExpansionContext.InPlace ⟨catalog, .ofSlots e.slots⟩ (run a e 5).code (run a e 6).code 5 .invokestatic
      ⟨"S", "f", "(J)V"⟩ target false args' positions' ∧
    target.owner = "S" ∧ target.name = "f" := by
  have hruns : ((Analysis.ofMethod "C" method).toOption.bind fun a => (Expansion.solve catalog a).toOption.map fun e =>
      counts a e 3 .invokevirtual ⟨"Q", "h", "(IJ)V"⟩ && counts a e 5 .invokestatic ⟨"S", "f", "(J)V"⟩) =
      some true := by decide +kernel
  obtain ⟨a, ha, hruns⟩ := except_ok_of_bind hruns
  obtain ⟨e, he, hruns⟩ := except_ok_of_map hruns
  rw [Bool.and_eq_true] at hruns
  have happly : ∀ (n : Nat) (op : Opcode) (m : Member), counts a e n op m = true →
      catalog.unpackAxis? m = none → ∃ args positions target,
        ExpansionContext.InPlace ⟨catalog, .ofSlots e.slots⟩ (run a e n).code (run a e (n + 1)).code n op m target
          false args positions ∧
        (∀ entry, catalog.lookup m = some entry → target = entry.replacement ∧
          ∀ p : Int, p ∈ entry.positions ↔ ∃ q ∈ positions, p = (q : Nat)) ∧
        (catalog.lookup m = none → target.owner = m.owner ∧ target.name = m.name) := by
    intro n op m hcounts hunpack
    simp only [counts, Bool.and_eq_true, Option.any_eq_true, decide_eq_true_eq,
      Option.isNone_iff_eq_none] at hcounts
    obtain ⟨⟨⟨⟨⟨⟨id, x⟩, f⟩, hline, rfl⟩, hfailed⟩, hcount⟩, hcall⟩ := hcounts
    have hnext : convertAll ⟨catalog, .ofSlots e.slots⟩ a e.slots (a.reachable.take n ++ [(((n : Int), x), f)])
        ⟨((SlotMap.ofSlots e.slots).apply method.code).code, 0, none⟩ = run a e (n + 1) := by
      rw [run, List.take_add_one, hline]
      rfl
    obtain ⟨args, positions, target, -, hinPlace, -, hentry, hnone⟩ :=
      rewrites_in_place (c := ⟨catalog, .ofSlots e.slots⟩) spec_build rfl hfailed hnext hcount hcall hunpack
    exact ⟨args, positions, target, hinPlace, hentry, fun h => ⟨(hnone h).1, (hnone h).2.1⟩⟩
  obtain ⟨args, positions, target, hfirst, hentry, -⟩ := happly 3 _ _ hruns.1 (by decide)
  obtain ⟨args', positions', target', hsecond, -, hnone⟩ := happly 5 _ _ hruns.2 (by decide)
  obtain ⟨rfl, hpositions⟩ := hentry _ rfl
  obtain ⟨howner, hname⟩ := hnone (by decide)
  refine ⟨a, e, args, args', positions, positions', target', ha, he, hfirst, fun p => ?_, hsecond, howner, hname⟩
  rw [← hpositions]
  simp [Entry.positions]

end TwoTargets

end CallRun

end CoordSplit
