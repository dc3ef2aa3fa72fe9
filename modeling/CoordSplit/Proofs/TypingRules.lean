import CoordSplit.Proofs.Kinds

/-!
# Typing rules

`Typing` says which kinds an instruction takes from the stack, which it puts there, and what it needs and
leaves in the local slots. Like the analysis the rules look at widths only, except at calls: what a call takes has
the kinds that its descriptor asks for. The analysis can take every step that they allow, and its frames keep to
the kinds (`KindStep.sound`).

In code in which longs are kept in three slots each, `first` tells the slots in which such a long starts:
loading and storing it there means the three ints.
-/

set_option autoImplicit false

namespace CoordSplit

/-! ## Rules -/

/-- The number of words that values of the kind take. -/
def Kind.size (κ : Kind) : Nat := if κ.isWide then 2 else 1

/-- What is known of the local slots: `L j κ` says that slot `j` holds a value of kind `κ`. -/
abbrev LocalKinds := Int → Kind → Prop

/-- What is known after a value of kind `κ` was stored in slot `j`. A wide value reaches into the next slot, and
one that started in the slot before is cut. -/
def LocalKinds.store (L : LocalKinds) (j : Int) (κ : Kind) : LocalKinds := fun k κ' =>
  if k = j then κ' = κ
  else L k κ' ∧ ¬ (k = j + 1 ∧ κ.isWide = true) ∧ ¬ (k = j - 1 ∧ κ'.isWide = true)

/-- What is known after three ints were stored from slot `j` on. -/
def LocalKinds.storeParts (L : LocalKinds) (j : Int) : LocalKinds :=
  ((L.store j .int).store (j + 1) .int).store (j + 2) .int

/-- The kinds that an instruction takes from the stack and those that it puts there, top first, with what is
known of the local slots before and after it. -/
inductive Typing (first : Int → Bool) : Insn → List Kind → LocalKinds → List Kind → LocalKinds → Prop
  | regular {x : Insn} {g : PlainSignature} {takes gives : List Kind} {L : LocalKinds}
      (hg : x.signature? = some g) (htakes : takes.map Kind.size = g.takes.map ValueType.size)
      (hcall : x.isCall = true → takes.map some = g.takes.map ValueType.kind?)
      (hgives : g.gives.toList.map ValueType.kind? = gives.map some) :
      Typing first x takes.reverse L gives L
  | drop {op : Opcode} {ks : List Kind} {L : LocalKinds}
      (h : op = .pop ∧ (ks.map Kind.size).sum = 1 ∨ op = .pop2 ∧ (ks.map Kind.size).sum = 2) :
      Typing first (.plain op) ks L [] L
  | move {op : Opcode} {ks ks' : List Kind} {L : LocalKinds} (h : Step.Rearranges Kind.isWide op ks ks') :
      Typing first (.plain op) ks L ks' L
  | load {op : Opcode} {t : ValueType} {κ κ' : Kind} {j : Int} {L : LocalKinds} (ht : op.varType? = some t)
      (hop : op.isLoad = true) (hκ : t.kind? = some κ) (hj : L j κ') (hwide : κ'.isWide = κ.isWide)
      (hfirst : κ = .long → first j = false) :
      Typing first (.var op j) [] L [if op = .aload ∨ op = .iload then κ' else κ] L
  | store {op : Opcode} {t : ValueType} {κ κ' : Kind} {j : Int} {L : LocalKinds} (ht : op.varType? = some t)
      (hop : op.isLoad = false) (hκ : t.kind? = some κ) (hwide : κ'.isWide = κ.isWide) (hj : 0 ≤ j)
      (hfirst : κ = .long → first j = false) :
      Typing first (.var op j) [κ'] L [] (L.store j κ')
  | loadParts {j : Int} {L : LocalKinds} (hfirst : first j = true) (hx : L j .int) (hy : L (j + 1) .int)
      (hz : L (j + 2) .int) : Typing first (.var .lload j) [] L [.long] L
  | storeParts {κ : Kind} {j : Int} {L : LocalKinds} (hfirst : first j = true) (hwide : κ.isWide = true)
      (hj : 0 ≤ j) : Typing first (.var .lstore j) [κ] L [] (L.storeParts j)
  | increment {j : Int} {delta : Int32} {L : LocalKinds} (hj : L j .int) : Typing first (.iinc j delta) [] L [] L

/-- What is known before an instruction: the kinds on the whole stack, top first, and those of the local
slots. -/
structure FrameType where
  stack : List Kind
  locals : LocalKinds

/-- An instruction acts on the top of the stack and leaves the rest. -/
def KindStep (first : Int → Bool) (x : Insn) (t t' : FrameType) : Prop :=
  ∃ ks ks' rest, t.stack = ks ++ rest ∧ t'.stack = ks' ++ rest ∧ Typing first x ks t.locals ks' t'.locals

/-- Whatever `u` says is known in `t`. -/
structure FrameType.Refines (t u : FrameType) : Prop where
  stack : t.stack = u.stack
  locals : ∀ j κ, u.locals j κ → t.locals j κ

theorem FrameType.Refines.refl (t : FrameType) : t.Refines t := ⟨rfl, fun _ _ h => h⟩

variable {t : FrameType} {x : Insn} {f : Frame} {vs rest : List Value} {ks : List Kind}

theorem FrameType.Refines.trans {u v : FrameType} (h : t.Refines u) (h' : u.Refines v) : t.Refines v :=
  ⟨h.stack.trans h'.stack, fun j κ hv => h.locals j κ (h'.locals j κ hv)⟩

theorem LocalKinds.store_mono {L M : LocalKinds} (h : ∀ j κ, L j κ → M j κ) {s : Int} {κ : Kind} {j : Int} {κ' : Kind}
    (hj : L.store s κ j κ') : M.store s κ j κ' := by
  rw [store] at hj ⊢
  split at hj
  · next heq => rwa [if_pos heq]
  · next hne =>
    rw [if_neg hne]
    exact ⟨h j κ' hj.1, hj.2⟩

/-- With more known before an instruction, no less is known after it. -/
theorem KindStep.mono {first : Int → Bool} {t' u : FrameType} (h : KindStep first x t t')
    (hu : u.Refines t) : ∃ u', KindStep first x u u' ∧ u'.Refines t' := by
  obtain ⟨ks, ks', rest, hks, hks', htyping⟩ := h
  suffices hrule : ∃ M', Typing first x ks u.locals ks' M' ∧ ∀ j κ, t'.locals j κ → M' j κ by
    obtain ⟨M', hM', hlocals⟩ := hrule
    exact ⟨⟨t'.stack, M'⟩, ⟨ks, ks', rest, hu.stack.trans hks, hks', hM'⟩, rfl, hlocals⟩
  have hlocals := hu.locals
  generalize t.locals = L, t'.locals = L', u.locals = M at htyping hlocals
  cases htyping with
  | regular hg htakes hcall hgives => exact ⟨M, .regular hg htakes hcall hgives, hlocals⟩
  | drop hop => exact ⟨M, .drop hop, hlocals⟩
  | move hmove => exact ⟨M, .move hmove, hlocals⟩
  | load ht hop hκ hj hwide hfirst => exact ⟨M, .load ht hop hκ (hlocals _ _ hj) hwide hfirst, hlocals⟩
  | store ht hop hκ hwide hj hfirst =>
    exact ⟨_, .store ht hop hκ hwide hj hfirst, fun _ _ hk => LocalKinds.store_mono hlocals hk⟩
  | loadParts hfirst hx hy hz =>
    exact ⟨M, .loadParts hfirst (hlocals _ _ hx) (hlocals _ _ hy) (hlocals _ _ hz), hlocals⟩
  | storeParts hfirst hwide hj =>
    refine ⟨_, .storeParts hfirst hwide hj, fun _ _ hk => ?_⟩
    exact LocalKinds.store_mono (fun _ _ h₂ => LocalKinds.store_mono (fun _ _ h₁ =>
      LocalKinds.store_mono hlocals h₁) h₂) hk
  | increment hj => exact ⟨M, .increment (hlocals _ _ hj), hlocals⟩

/-! ## Rules read backwards -/

section

variable {first : Int → Bool} {t t' : FrameType}

variable {x : Insn} {g : PlainSignature} {j : Int}

/-- No other rule is for instructions with a signature. -/
theorem Typing.of_signature {ks ks' : List Kind} {L L' : LocalKinds}
    (h : Typing first x ks L ks' L') (hg : x.signature? = some g) :
    L' = L ∧ ks.reverse.map Kind.size = g.takes.map ValueType.size ∧
      (x.isCall = true → ks.reverse.map some = g.takes.map ValueType.kind?) ∧
      g.gives.toList.map ValueType.kind? = ks'.map some := by
  cases h with
  | regular hg' htakes hcall hgives =>
    obtain rfl := Option.some.inj (hg.symm.trans hg')
    rw [List.reverse_reverse]
    exact ⟨rfl, htakes, hcall, hgives⟩
  | drop hop => rcases hop with ⟨rfl, -⟩ | ⟨rfl, -⟩ <;> cases hg
  | move hmove =>
    have hshuffle := hmove.isShuffle
    unfold Step.isShuffle at hshuffle
    split at hshuffle <;> first
      | cases hg
      | cases hshuffle
  | load => cases hg
  | store => cases hg
  | loadParts => cases hg
  | storeParts => cases hg
  | increment => cases hg

theorem Kind.map_size_eq_of_kinds {ks : List Kind} {ts : List ValueType}
    (h : ks.map some = ts.map ValueType.kind?) : ks.map Kind.size = ts.map ValueType.size := by
  induction ks generalizing ts with
  | nil =>
    rw [List.map_nil, eq_comm, List.map_eq_nil_iff] at h
    rw [h]
    rfl
  | cons κ ks ih =>
    obtain ⟨t, ts, rfl, ht, hts⟩ := List.map_eq_cons_iff.mp h.symm
    rw [List.map_cons, List.map_cons, ih hts.symm, ValueType.size_eq_of_kind? ht]
    rfl

theorem map_some_injective {α : Type} : Function.Injective (List.map (some : α → Option α)) :=
  List.map_injective_iff.mpr fun _ _ h => Option.some.inj h

/-- An instruction with a signature takes values of the widths that it asks for, whatever lies on top. -/
theorem KindStep.regular (h : KindStep first x t t') (hg : x.signature? = some g)
    (top gives : List Kind) {rest : List Kind} (hstack : t.stack = top.reverse ++ rest) (htop : top.length = g.takes.length)
    (hgives : g.gives.toList.map ValueType.kind? = gives.map some) :
    t' = ⟨gives ++ rest, t.locals⟩ ∧ (x.isCall = true → top.map some = g.takes.map ValueType.kind?) := by
  obtain ⟨ks, ks', rest', hks, hks', htyping⟩ := h
  obtain ⟨hlocals, hsizes, hcall, hgives'⟩ := htyping.of_signature hg
  have hlength : ks.length = top.reverse.length := by
    have := congrArg List.length hsizes
    simpa [htop] using this
  obtain ⟨rfl, rfl⟩ := List.append_inj (hks.symm.trans hstack) hlength
  obtain rfl := map_some_injective (hgives.symm.trans hgives')
  rw [List.reverse_reverse] at hcall
  exact ⟨by rw [← hks', ← hlocals], hcall⟩

/-- An instruction with a signature can take values of the kinds that it asks for. -/
theorem kindStep_regular (takes gives : List Kind) (hg : x.signature? = some g)
    (htakes : takes.map some = g.takes.map ValueType.kind?)
    (hgives : g.gives.toList.map ValueType.kind? = gives.map some) (rest : List Kind) (L : LocalKinds) :
    KindStep first x ⟨takes.reverse ++ rest, L⟩ ⟨gives ++ rest, L⟩ :=
  ⟨takes.reverse, gives, rest, rfl, rfl, .regular hg (Kind.map_size_eq_of_kinds htakes) (fun _ => htakes) hgives⟩

/-- What takes nothing from the stack, and a call, needs values of given kinds. -/
theorem kindStep_fixed_iff (takes gives : List Kind) (hg : x.signature? = some g)
    (htakes : takes.map some = g.takes.map ValueType.kind?)
    (hgives : g.gives.toList.map ValueType.kind? = gives.map some) (hx : takes = [] ∨ x.isCall = true) :
    KindStep first x t t' ↔ ∃ rest, t.stack = takes.reverse ++ rest ∧ t' = ⟨gives ++ rest, t.locals⟩ := by
  constructor
  · rintro ⟨ks, ks', rest, hks, hks', htyping⟩
    obtain ⟨hlocals, hsizes, hcall, hgives'⟩ := htyping.of_signature hg
    obtain rfl := map_some_injective (hgives.symm.trans hgives')
    have htaken : ks.reverse = takes := by
      rcases hx with rfl | hx
      · rw [← Kind.map_size_eq_of_kinds htakes, List.map_nil] at hsizes
        exact List.map_eq_nil_iff.mp hsizes
      · exact map_some_injective ((hcall hx).trans htakes.symm)
    refine ⟨rest, ?_, by rw [← hks', ← hlocals]⟩
    rw [← htaken, List.reverse_reverse, hks]
  · rintro ⟨rest, hstack, rfl⟩
    obtain ⟨stack, L⟩ := t
    rw [show stack = takes.reverse ++ rest from hstack]
    exact kindStep_regular takes gives hg htakes hgives rest L

/-- Loading a long that is in parts. -/
theorem kindStep_packedLoad_iff (hfirst : first j = true) :
    KindStep first (.var .lload j) t t' ↔
      (t.locals j .int ∧ t.locals (j + 1) .int ∧ t.locals (j + 2) .int) ∧ t' = ⟨.long :: t.stack, t.locals⟩ := by
  constructor
  · rintro ⟨ks, ks', rest, hks, hks', htyping⟩
    obtain ⟨stack, L⟩ := t
    obtain ⟨stack', L'⟩ := t'
    simp only at hks hks' htyping ⊢
    cases htyping with
    | regular hg => cases hg
    | load ht _ hκ _ _ hlong =>
      obtain rfl := Option.some.inj ht
      obtain rfl := Option.some.inj hκ
      rw [hlong rfl] at hfirst
      cases hfirst
    | store _ hop => cases hop
    | loadParts _ hx hy hz =>
      rw [List.nil_append] at hks
      exact ⟨⟨hx, hy, hz⟩, by rw [hks', hks]; rfl⟩
  · rintro ⟨⟨hx, hy, hz⟩, rfl⟩
    exact ⟨[], [.long], t.stack, rfl, rfl, .loadParts hfirst hx hy hz⟩

/-- Storing a long in parts. -/
theorem kindStep_packedStore_iff (hfirst : first j = true) :
    KindStep first (.var .lstore j) t t' ↔
      0 ≤ j ∧ ∃ κ rest, κ.isWide = true ∧ t.stack = κ :: rest ∧ t' = ⟨rest, t.locals.storeParts j⟩ := by
  constructor
  · rintro ⟨ks, ks', rest, hks, hks', htyping⟩
    obtain ⟨stack, L⟩ := t
    obtain ⟨stack', L'⟩ := t'
    simp only at hks hks' htyping ⊢
    cases htyping with
    | regular hg => cases hg
    | load _ hop => cases hop
    | store ht _ hκ _ _ hlong =>
      obtain rfl := Option.some.inj ht
      obtain rfl := Option.some.inj hκ
      rw [hlong rfl] at hfirst
      cases hfirst
    | storeParts _ hwide hj => exact ⟨hj, _, rest, hwide, hks, by rw [hks']; rfl⟩
  · rintro ⟨hj, κ, rest, hwide, hstack, rfl⟩
    exact ⟨[κ], [], rest, hstack, rfl, .storeParts hfirst hwide hj⟩

/-- Loads of values of one word push what is known of the slot. -/
theorem kindStep_load_iff {op : Opcode} (hop : op = .iload ∨ op = .aload) :
    KindStep first (.var op j) t t' ↔
      ∃ κ, t.locals j κ ∧ κ.isWide = false ∧ t' = ⟨κ :: t.stack, t.locals⟩ := by
  constructor
  · rintro ⟨ks, ks', rest, hks, hks', htyping⟩
    obtain ⟨stack, L⟩ := t
    obtain ⟨stack', L'⟩ := t'
    simp only at hks hks' htyping ⊢
    cases htyping with
    | regular hg => cases hg
    | load ht _ hκ hj hwide =>
      rw [List.nil_append] at hks
      rw [if_pos hop.symm] at hks'
      refine ⟨_, hj, ?_, by rw [hks', hks]; rfl⟩
      rcases hop with rfl | rfl <;> obtain rfl := Option.some.inj ht <;> obtain rfl := Option.some.inj hκ <;>
        exact hwide
    | store _ hop' => rcases hop with rfl | rfl <;> cases hop'
    | loadParts => simp at hop
    | storeParts => simp at hop
  · rintro ⟨κ, hj, hwide, rfl⟩
    refine ⟨[], [κ], t.stack, rfl, rfl, ?_⟩
    rcases hop with rfl | rfl
    · exact .load (t := .int) (κ := .int) rfl rfl rfl hj hwide (by simp)
    · exact .load (t := .objectClass) (κ := .ref) rfl rfl rfl hj hwide (by simp)

theorem kindStep_storeInt {rest : List Kind} {L : LocalKinds} (hj : 0 ≤ j) :
    KindStep first (.var .istore j) ⟨.int :: rest, L⟩ ⟨rest, L.store j .int⟩ :=
  ⟨[.int], [], rest, rfl, rfl, .store (t := .int) (κ := .int) rfl rfl rfl rfl hj (by simp)⟩

end

/-! ## The analysis follows the rules -/

theorem Frame.lt_length_of_localAt {k : Nat} {v : Value} (h : f.localAt k = some v) : k < f.locals.length := by
  have hk : (f.locals[k]?).join = some v := h
  by_contra hlt
  rw [List.getElem?_eq_none (by omega)] at hk
  cases hk

/-- A slot of the frame holds a value of the kind. -/
def Frame.Holds (f : Frame) (j : Int) (κ : Kind) : Prop := ∃ v, f.localAt j = some v ∧ v.kind? = some κ

/-- The frame agrees with what is known. -/
structure Frame.Fits (f : Frame) (t : FrameType) : Prop where
  stack : f.stack.map Value.kind? = t.stack.map some
  locals : ∀ j κ, t.locals j κ → f.Holds j κ

namespace Step

/-- How the values that an instruction takes turn into those that it leaves and those that it uses. -/
inductive Handles (id : Nat) (x : Insn) : List Value → List Value → List Value → Prop
  | consumes {vs vs' used : List Value} (hused : ∀ v ∈ vs, v ∈ used) (hnew : ∀ v ∈ vs', v.prod = .singleton id) :
      Handles id x vs vs' used
  | moves {op : Opcode} {vs vs' : List Value} (hx : x = .plain op) (h : Rearranges Value.isWide op vs vs') :
      Handles id x vs vs' []
  | measures {value : Int32} {v v' : Value} (hx : x = .push .newarray value) (hnew : v'.prod = .singleton id) :
      Handles id x [v] [v'] []

theorem popWords_append {vs : List Value} {n : Int} (hn : ((vs.map Value.size).sum : Int) = n)
    (hpos : ∀ v ∈ vs, 0 < v.size) (rest : List Value) : popWords n (vs ++ rest) = .ok (vs, rest) := by
  induction vs generalizing n with
  | nil =>
    simp only [List.map_nil, List.sum_nil, Nat.cast_zero] at hn
    subst hn
    cases rest <;> simp [popWords]
  | cons v vs ih =>
    simp only [List.map_cons, List.sum_cons, Nat.cast_add] at hn
    have hv := hpos v (by simp)
    rw [List.cons_append, popWords, if_neg (by omega), if_neg (by omega),
      ih (by omega) fun w hw => hpos w (by simp [hw])]

theorem join_getElem?_padded (locals : List (Option Value)) (n k : Nat) :
    ((locals ++ List.replicate n none)[k]?).join = (locals[k]?).join := by
  by_cases hk : k < locals.length
  · rw [List.getElem?_append_left hk]
  · rw [List.getElem?_append_right (by omega), List.getElem?_eq_none (by omega : locals.length ≤ k),
      List.getElem?_replicate]
    split <;> rfl

theorem join_getElem?_set {l : List (Option Value)} {i : Nat} (hi : i < l.length) (v : Option Value) (k : Nat) :
    ((l.set i v)[k]?).join = if k = i then v else (l[k]?).join := by
  rw [List.getElem?_set]
  by_cases hk : k = i
  · subst hk
    simp [hi]
  · rw [if_neg (Ne.symm hk), if_neg hk]

/-- What the slots hold after a value was stored in one of them. -/
theorem join_getElem?_setLocal (locals : List (Option Value)) (slot k : Nat) {v : Value} (hv : 0 < v.size) :
    ((setLocal locals slot v)[k]?).join =
      if k = slot then some v
      else if k = slot + 1 ∧ v.isWide = true then none
      else if k + 1 = slot ∧ ((locals[k]?).join.any Value.isWide) = true then none
      else (locals[k]?).join := by
  -- the slot before is cleared if a wide value starts there
  have hbelow : ∃ below : List (Option Value), slot + v.size ≤ below.length ∧
      (∀ j, (below[j]?).join = if j + 1 = slot ∧ ((locals[j]?).join.any Value.isWide) = true then none
        else (locals[j]?).join) ∧
      setLocal locals slot v = if v.isWide then (below.set slot (some v)).set (slot + 1) none
        else below.set slot (some v) := by
    have hpad := join_getElem?_padded locals (slot + v.size - locals.length)
    have hlen : slot + v.size ≤ (locals ++ List.replicate (slot + v.size - locals.length) none).length := by
      rw [List.length_append, List.length_replicate]
      omega
    cases slot with
    | zero => exact ⟨_, hlen, fun j => by rw [hpad]; simp, rfl⟩
    | succ n =>
      have hn := hpad n
      cases hlocal : (locals[n]?).join with
      | none =>
        refine ⟨_, hlen, fun j => ?_, ?_⟩
        · rw [hpad, if_neg]
          rintro ⟨hj, hwide⟩
          obtain rfl : j = n := by omega
          simp [hlocal] at hwide
        · rw [hlocal] at hn
          simp only [setLocal, hn]
      | some w =>
        rw [hlocal] at hn
        by_cases hw : w.isWide = true
        · refine ⟨_, le_of_le_of_eq hlen (List.length_set (a := none) (i := n)).symm, fun j => ?_, ?_⟩
          · rw [join_getElem?_set (by omega)]
            by_cases hj : j = n
            · subst hj
              simp [hlocal, hw]
            · rw [if_neg hj, hpad, if_neg (by omega)]
          · simp only [setLocal, hn, if_pos hw]
        · refine ⟨_, hlen, fun j => ?_, ?_⟩
          · rw [hpad, if_neg]
            rintro ⟨hj, hwide⟩
            obtain rfl : j = n := by omega
            simp [hlocal, hw] at hwide
          · simp only [setLocal, hn, if_neg hw]
  obtain ⟨below, hlen, hget, heq⟩ := hbelow
  rw [heq]
  split
  · next hwide =>
    have hsize : v.size = 2 := by simpa [Value.isWide] using hwide
    rw [join_getElem?_set (by rw [List.length_set]; omega), join_getElem?_set (by omega), hget]
    by_cases h1 : k = slot + 1
    · subst h1
      simp [hwide]
    · simp [h1]
  · next hwide =>
    rw [join_getElem?_set (by omega), hget]
    simp [hwide]

/-- What is known after a store holds of the frame. -/
theorem setLocal_holds {locals : List (Option Value)} {stack : List Value} {L : LocalKinds} {slot : Nat} {v : Value}
    {κ : Kind} (hL : ∀ j κ, L j κ → Frame.Holds ⟨stack, locals⟩ j κ) (hv : v.kind? = some κ) (rest : List Value) :
    ∀ j κ', L.store slot κ j κ' → Frame.Holds ⟨rest, setLocal locals slot v⟩ j κ' := by
  intro j κ' h
  have hpos : 0 < v.size := by
    rw [Value.size_eq_of_kind? hv]
    split <;> decide
  rw [LocalKinds.store] at h
  split at h
  · next hj =>
    subst hj h
    refine ⟨v, ?_, hv⟩
    show ((setLocal locals slot v)[slot]?).join = some v
    rw [join_getElem?_setLocal locals slot slot hpos, if_pos rfl]
  · next hj =>
    obtain ⟨hknown, habove, hbelow⟩ := h
    obtain ⟨w, hw, hκ'⟩ := hL j κ' hknown
    cases j with
    | negSucc _ => cases hw
    | ofNat k =>
      refine ⟨w, ?_, hκ'⟩
      have hw' : (locals[k]?).join = some w := hw
      show ((setLocal locals slot v)[k]?).join = some w
      rw [join_getElem?_setLocal locals slot k hpos, hw', if_neg, if_neg, if_neg]
      · rintro ⟨hk, hwide⟩
        apply hbelow
        rw [Option.any_some, Value.isWide_eq_of_kind? hκ'] at hwide
        exact ⟨by simp only [Int.ofNat_eq_natCast]; omega, hwide⟩
      · rintro ⟨hk, hwide⟩
        apply habove
        rw [Value.isWide_eq_of_kind? hv] at hwide
        exact ⟨by simp only [Int.ofNat_eq_natCast]; omega, hwide⟩
      · intro hk
        exact hj (by rw [hk]; rfl)

end Step

theorem size_eq_of_kinds (h : vs.map Value.kind? = ks.map some) : vs.map Value.size = ks.map Kind.size := by
  induction vs generalizing ks with
  | nil =>
    rw [List.map_nil, eq_comm, List.map_eq_nil_iff] at h
    rw [h]
    rfl
  | cons v vs ih =>
    cases ks with
    | nil => simp at h
    | cons κ ks =>
      simp only [List.map_cons, List.cons.injEq] at h ⊢
      exact ⟨Value.size_eq_of_kind? h.1, ih h.2⟩

/-- Values that make up the words to drop can be dropped. -/
theorem step_drop {op : Opcode} (hop : op = .pop ∧ (ks.map Kind.size).sum = 1 ∨ op = .pop2 ∧ (ks.map Kind.size).sum = 2)
    (hstack : f.stack = vs ++ rest) (hvs : vs.map Value.kind? = ks.map some) (id : Nat) :
    step id (.plain op) f = .ok ⟨⟨rest, f.locals⟩, vs⟩ := by
  have hsizes := size_eq_of_kinds hvs
  have hpos : ∀ v ∈ vs, 0 < v.size := by
    intro v hv
    have hmem : v.size ∈ ks.map Kind.size := hsizes ▸ List.mem_map_of_mem hv
    obtain ⟨κ, -, hκ⟩ := List.mem_map.mp hmem
    rw [← hκ, Kind.size]
    split <;> decide
  have hpop : ((vs.map Value.size).sum : Int) = if op = .pop then 1 else 2 := by
    rw [hsizes]
    rcases hop with ⟨rfl, h⟩ | ⟨rfl, h⟩ <;> rw [h] <;> rfl
  have hplain : op = .pop ∨ op = .pop2 := hop.imp And.left And.left
  rw [step, Step.plain, if_pos hplain, hstack, Step.popWords_append hpop hpos rest]
  rfl

/-- Values whose kinds can be moved can be moved alike. -/
theorem step_move {op : Opcode} {ks' : List Kind} (hmove : Step.Rearranges Kind.isWide op ks ks')
    (hstack : f.stack = vs ++ rest) (hvs : vs.map Value.kind? = ks.map some) (id : Nat) :
    ∃ vs', step id (.plain op) f = .ok ⟨⟨vs' ++ rest, f.locals⟩, []⟩ ∧ vs'.map Value.kind? = ks'.map some ∧
      Step.Rearranges Value.isWide op vs vs' := by
  -- the values are wide where their kinds are
  let wide : Option Kind → Bool := fun κ => κ.any Kind.isWide
  have hkinds : Step.Rearranges wide op (ks.map some) (ks'.map some) := hmove.map fun _ _ => rfl
  have hwide : ∀ v ∈ vs, wide v.kind? = v.isWide := by
    intro v hv
    have hmem : v.kind? ∈ ks.map some := hvs ▸ List.mem_map_of_mem hv
    obtain ⟨κ, -, hκ⟩ := List.mem_map.mp hmem
    rw [← hκ, Value.isWide_eq_of_kind? hκ.symm]
    rfl
  rw [← hvs] at hkinds
  obtain ⟨vs', hvalues, hvs'⟩ := hkinds.of_map hwide
  have hshuffle := hvalues.isShuffle
  have hplain : ¬ (op = .pop ∨ op = .pop2) := by rintro (rfl | rfl) <;> simp [Step.isShuffle] at hshuffle
  refine ⟨vs', ?_, hvs', hvalues⟩
  rw [step, Step.plain, if_neg hplain, if_pos hshuffle, hstack, Step.shuffle_of_rearranges hvalues]
  rfl

/-- Every slot keeps its kind if the value in one of them gives way to another of the same kind. -/
theorem Frame.Holds.set {i j : Int} {κ : Kind} {v w : Value} (h : f.Holds i κ)
    (hv : f.localAt j = some v) (hw : w.kind? = v.kind?) (stack : List Value) :
    Frame.Holds ⟨stack, f.locals.set j.toNat (some w)⟩ i κ := by
  obtain ⟨u, hu, huκ⟩ := h
  cases j with
  | negSucc _ => cases hv
  | ofNat n =>
    cases i with
    | negSucc _ => cases hu
    | ofNat k =>
      have hset := Step.join_getElem?_set (Frame.lt_length_of_localAt hv) (some w) k
      by_cases hk : k = n
      · subst hk
        obtain rfl : u = v := Option.some.inj (hu.symm.trans hv)
        rw [if_pos rfl] at hset
        exact ⟨w, hset, hw.trans huκ⟩
      · rw [if_neg hk] at hset
        exact ⟨u, hset.trans hu, huκ⟩

/-- The analysis can execute what the rules allow, and comes to the kinds that they give. -/
theorem Typing.execute {ks' : List Kind} {L L' : LocalKinds} (h : Typing (fun _ => false) x ks L ks' L')
    (hstack : f.stack = vs ++ rest) (hvs : vs.map Value.kind? = ks.map some)
    (hL : ∀ j κ, L j κ → f.Holds j κ) (id : Nat) :
    ∃ vs' locals used, step id x f = .ok ⟨⟨vs' ++ rest, locals⟩, used⟩ ∧
      vs'.map Value.kind? = ks'.map some ∧ (∀ j κ, L' j κ → Frame.Holds ⟨vs' ++ rest, locals⟩ j κ) ∧
      Step.Handles id x vs vs' used := by
  cases h with
  | @regular _ g takes gives _ hg htakes hcall hgives =>
    have hsizes : vs.reverse.map Value.size = g.takes.map ValueType.size := by
      rw [List.map_reverse, size_eq_of_kinds hvs, ← List.map_reverse, List.reverse_reverse, htakes]
    obtain ⟨used, hstep, hused⟩ := step_of_signature hg (by rw [hstack, List.reverse_reverse]) hsizes id
    refine ⟨_, _, used, hstep, ?_, hL, ?_⟩
    · rw [← hgives]
      cases g.gives <;> rfl
    · rcases hused with rfl | ⟨value, t, rfl, rfl, rfl⟩
      · refine .consumes (fun v hv => List.mem_reverse.mpr hv) ?_
        intro v hv
        obtain ⟨t, -, rfl⟩ : ∃ t, g.gives = some t ∧ Value.produced t id = v := by
          simpa [Option.map_eq_some_iff] using hv
        rfl
      · obtain ⟨v, rfl⟩ : ∃ v, vs = [v] := by
          have hlen := congrArg List.length hsizes
          simp only [List.length_map, List.length_reverse, List.length_cons, List.length_nil] at hlen
          exact List.length_eq_one_iff.mp hlen
        exact .measures rfl rfl
  | @drop op _ _ hop =>
    exact ⟨[], f.locals, vs, step_drop hop hstack hvs id, rfl, hL, .consumes (fun v hv => hv) (by simp)⟩
  | @move op _ _ _ hmove =>
    obtain ⟨vs', hstep, hvs', hvalues⟩ := step_move hmove hstack hvs id
    exact ⟨vs', f.locals, [], hstep, hvs', hL, .moves rfl hvalues⟩
  | @load op t κ κ' j _ ht hop hκ hj hwide hfirst =>
    obtain rfl : vs = [] := by simpa using hvs
    obtain ⟨v, hv, hvκ⟩ := hL j κ' hj
    have hsize : v.size = t.size := by
      rw [Value.size_eq_of_kind? hvκ, ValueType.size_eq_of_kind? hκ, hwide]
    refine ⟨[⟨if op = .aload ∨ op = .iload then v.type else t, .singleton id, .singleton j.toNat⟩], f.locals, [],
      ?_, ?_, hL, .consumes (by simp) (by simp)⟩
    · simp [step, Step.slotAccess, ht, hop, hv, hsize, hstack]
    · have hpushed : (if op = .aload ∨ op = .iload then v.type else t).kind? =
          some (if op = .aload ∨ op = .iload then κ' else κ) := by
        split
        · exact hvκ
        · exact hκ
      simp only [List.map_singleton, Value.kind?, hpushed]
  | @store op t κ κ' j _ ht hop hκ hwide hj hfirst =>
    obtain ⟨v, rfl, hvκ⟩ : ∃ v, vs = [v] ∧ v.kind? = some κ' := by
      simpa [List.map_eq_cons_iff] using hvs
    have hsize : v.size = t.size := by
      rw [Value.size_eq_of_kind? hvκ, ValueType.size_eq_of_kind? hκ, hwide]
    obtain ⟨k, rfl⟩ := Int.eq_ofNat_of_zero_le hj
    refine ⟨[], Step.setLocal f.locals k ⟨v.type, v.prod, .singleton k⟩, [v], ?_, rfl, ?_,
      .consumes (by simp) (by simp)⟩
    · simp [step, Step.slotAccess, ht, hop, hstack, Step.pop, hsize]
    · have hstored : Value.kind? ⟨v.type, v.prod, .singleton k⟩ = some κ' := hvκ
      exact Step.setLocal_holds hL hstored _
  | loadParts hfirst => simp at hfirst
  | storeParts hfirst => simp at hfirst
  | @increment j delta _ hj =>
    obtain rfl : vs = [] := by simpa using hvs
    obtain ⟨v, hv, hvκ⟩ := hL j .int hj
    have hint : v.type.isInt = true := (ValueType.isInt_iff_kind? _).mpr hvκ
    refine ⟨[], f.locals.set j.toNat (some ⟨.int, .singleton id, .singleton j.toNat⟩), [v], ?_, rfl, ?_,
      .consumes (by simp) (by simp)⟩
    · simp [step, hv, hint, hstack]
    · have hsum : Value.kind? ⟨.int, .singleton id, .singleton j.toNat⟩ = v.kind? := hvκ.symm
      exact fun i κ hi => (hL i κ hi).set hv hsum rest

/-- The analysis can take every step that the rules allow, and its frames keep to the kinds. -/
theorem KindStep.sound {t' : FrameType} (h : KindStep (fun _ => false) x t t')
    (hf : f.Fits t) (id : Nat) : ∃ r, step id x f = .ok r ∧ r.frame.Fits t' := by
  obtain ⟨ks, ks', rest, hks, hks', htyping⟩ := h
  have hstack := hf.stack
  rw [hks, List.map_append] at hstack
  obtain ⟨vs, vrest, hvs, htop, hrest⟩ := List.map_eq_append_iff.mp hstack
  obtain ⟨vs', locals, used, hstep, hkinds, hlocals, -⟩ := htyping.execute hvs htop hf.locals id
  refine ⟨_, hstep, ?_, hlocals⟩
  rw [hks', List.map_append, List.map_append, hkinds, hrest]

end CoordSplit
