import CoordSplit.Storage
import CoordSplit.Proofs.IndexSets

/-!
# What lies in storage

Sets and codes that know different addresses are out of each other's way (`SetTable.Separate`,
`CodeTable.Separate`). Whatever is made anew or copied gets an address that nothing else knows, and whatever is
changed is changed at its own address, so an action on sets writes one set and leaves all others as they were
(`SetTable.run_spec`), and an action on codes does so too (`CodeTable.codes_update`, `CodeTable.codes_add`).
-/

set_option autoImplicit false

namespace CoordSplit

/-! ## Storage -/

namespace Storage

variable {β : Type} (st : Storage β) {a b : Nat} (x : β)

/-- What is written at an address is read there. -/
theorem read?_write_self (h : a < st.slices.length) : (st.write a x).read? a = some x := by
  rw [write, read?, List.getElem?_set_self h]

/-- Writing at an address changes nothing at another one. -/
theorem read?_write_of_ne (h : a ≠ b) : (st.write a x).read? b = st.read? b := by
  rw [write, read?, List.getElem?_set_ne h, read?]

/-- A new slice holds what it was taken for. -/
theorem read?_alloc_self : (st.alloc x).1.read? (st.alloc x).2 = some x := by
  rw [alloc, read?, List.getElem?_concat_length]

/-- Taking a slice changes nothing in the others. -/
theorem read?_alloc_of_lt (h : a < st.slices.length) : (st.alloc x).1.read? a = st.read? a := by
  rw [alloc, read?, List.getElem?_append_left h, read?]

/-- Writing makes no slice. -/
@[simp] theorem length_write : (st.write a x).slices.length = st.slices.length := List.length_set

/-- Allocating makes one. -/
@[simp] theorem length_alloc : (st.alloc x).1.slices.length = st.slices.length + 1 := by
  rw [alloc, List.length_append, List.length_singleton]

/-- It is the last one. -/
@[simp] theorem alloc_address : (st.alloc x).2 = st.slices.length := rfl

end Storage

/-! ## Tables of sets -/

namespace SetTable

/-- No two sets know the same address, and every address that is known is taken. -/
structure Separate (t : SetTable) : Prop where
  apart : ∀ r q a, t.address? r = some a → t.address? q = some a → r = q
  taken : ∀ r a, t.address? r = some a → a < t.store.slices.length

variable {t : SetTable}

/-- Without sets nothing is shared. -/
theorem separate_empty : empty.Separate := by
  constructor
  · intro r q a h
    cases h
  · intro r a h
    cases h

/-- What a set reads does not change when its slice does not. -/
theorem get_congr {u : SetTable} {r : Nat} (haddr : u.address? r = t.address? r)
    (hread : ∀ a, t.address? r = some a → u.store.read? a = t.store.read? a) : u.get r = t.get r := by
  rw [get, get, haddr]
  cases ha : t.address? r with
  | none => rfl
  | some a => rw [Option.bind_some, Option.bind_some, hread a ha]

/-- A set is what stands at its address. -/
theorem get_of_address {r a : Nat} {ws : List UInt64} (ha : t.address? r = some a) (hread : t.store.read? a = some ws) :
    t.get r = ⟨ws⟩ := by
  rw [get, ha, Option.bind_some, hread, Option.getD_some]

/-- A set that is made anew gets an address that no other set knows. -/
theorem Separate.renew (h : t.Separate) (r : Nat) (s : IndexSet) : (t.renew r s).Separate := by
  have hold : ∀ q a, t.address? q = some a → a ≠ t.store.slices.length := fun q a ha => (h.taken q a ha).ne
  constructor
  · intro p q a hp hq
    simp only [SetTable.renew, assign, Storage.alloc_address] at hp hq
    by_cases hpr : p = r <;> by_cases hqr : q = r
    · rw [hpr, hqr]
    · rw [if_pos hpr] at hp
      rw [if_neg hqr] at hq
      exact absurd (Option.some.inj hp).symm (hold q a hq)
    · rw [if_neg hpr] at hp
      rw [if_pos hqr] at hq
      exact absurd (Option.some.inj hq).symm (hold p a hp)
    · rw [if_neg hpr] at hp
      rw [if_neg hqr] at hq
      exact h.apart p q a hp hq
  · intro q a hq
    simp only [SetTable.renew, assign, Storage.alloc_address, Storage.length_alloc] at hq ⊢
    split at hq
    · rw [← Option.some.inj hq]
      exact Nat.lt_succ_self _
    · exact Nat.lt_succ_of_lt (h.taken q a hq)

/-- Making a set anew leaves every other set alone. -/
theorem Separate.get_renew (h : t.Separate) (r : Nat) (s : IndexSet) (q : Nat) :
    (t.renew r s).get q = if q = r then s else t.get q := by
  split
  · next hq =>
    exact get_of_address (by simp [SetTable.renew, assign, hq]) (t.store.read?_alloc_self s.words)
  · next hq =>
    apply get_congr
    · simp [SetTable.renew, assign, hq]
    · exact fun a ha => t.store.read?_alloc_of_lt s.words (h.taken q a ha)

/-- Writing a set in place shares nothing. -/
theorem Separate.update (h : t.Separate) (r : Nat) (s : IndexSet) : (t.update r s).Separate := by
  rw [SetTable.update]
  split
  · exact ⟨h.apart, fun q a ha => by rw [Storage.length_write]; exact h.taken q a ha⟩
  · exact h.renew r s

/-- Changing a set where it lies leaves every other set alone. -/
theorem Separate.get_update (h : t.Separate) (r : Nat) (s : IndexSet) (q : Nat) :
    (t.update r s).get q = if q = r then s else t.get q := by
  rw [SetTable.update]
  split
  · next a ha =>
    split
    · next hq =>
      subst hq
      exact get_of_address ha (t.store.read?_write_self s.words (h.taken q a ha))
    · next hq =>
      apply get_congr
      · rfl
      · intro b hb
        apply t.store.read?_write_of_ne
        rintro rfl
        exact hq (h.apart q r a hb ha)
  · exact h.get_renew r s q

/-- Uniting two sets copies the longer one before it writes, so it is making their union anew. -/
theorem Separate.unite_eq (h : t.Separate) (r a b : Nat) : t.unite r a b = t.renew r ((t.get a).union (t.get b)) := by
  -- what is read from the shorter set is not touched by the copy
  have hjoin : ∀ long short, { t with store := (t.store.alloc (t.get long).words).1 }.get short = t.get short :=
    fun long short => get_congr rfl fun b hb => t.store.read?_alloc_of_lt _ (h.taken short b hb)
  have hstore : ∀ xs ys : List UInt64, (t.store.alloc xs).1.write t.store.slices.length ys = (t.store.alloc ys).1 := by
    intro xs ys
    rw [Storage.alloc, Storage.alloc, Storage.write, List.set_append_right _ _ le_rfl, Nat.sub_self]
    rfl
  have hcopy : ∀ xs : List UInt64, (t.store.alloc xs).1.read? t.store.slices.length = some xs :=
    fun xs => t.store.read?_alloc_self xs
  by_cases hlt : (t.get a).words.length < (t.get b).words.length
  · simp only [SetTable.unite, IndexSet.union, if_pos hlt, hjoin, Storage.alloc_address, hcopy, hstore, Option.getD_some]
    rfl
  · simp only [SetTable.unite, IndexSet.union, if_neg hlt, hjoin, Storage.alloc_address, hcopy, hstore, Option.getD_some]
    rfl

namespace Action

/-- The number of the set that is written. -/
def target : Action → Nat
  | .of r _ | .insert r _ | .erase r _ | .union r _ _ | .copy r _ | .merge r _ => r

/-- The set that is written, where `σ` gives the sets before. -/
def result (σ : Nat → IndexSet) : Action → Except Fault IndexSet
  | .of _ keys => IndexSet.ofList? keys
  | .insert r k => (σ r).insert? k
  | .erase r k => (σ r).erase? k
  | .union _ a b => .ok ((σ a).union (σ b))
  | .copy _ a => .ok (σ a)
  | .merge r a => .ok ((σ r).merge (σ a)).1

end Action

/-- The table has the set `s` with number `r`, and otherwise the sets of another table. -/
structure Writes (t u : SetTable) (r : Nat) (s : IndexSet) : Prop where
  separate : u.Separate
  written : u.get r = s
  kept : ∀ q, q ≠ r → u.get q = t.get q

/-- A set at a new address is the only one that changes. -/
theorem Separate.writes_renew (h : t.Separate) (r : Nat) (s : IndexSet) : t.Writes (t.renew r s) r s :=
  ⟨h.renew r s, by rw [h.get_renew, if_pos rfl], fun q hq => by rw [h.get_renew, if_neg hq]⟩

/-- A set in place is the only one that changes. -/
theorem Separate.writes_update (h : t.Separate) (r : Nat) (s : IndexSet) : t.Writes (t.update r s) r s :=
  ⟨h.update r s, by rw [h.get_update, if_pos rfl], fun q hq => by rw [h.get_update, if_neg hq]⟩

/-- An action has a result iff the operation on sets that it stands for has one. It writes that set, and no other:
operands that are only read stay as they are. -/
theorem Separate.run_spec (h : t.Separate) (act : Action) :
    (∀ f, act.result t.get = .error f → t.run act = .error f) ∧
    ∀ s, act.result t.get = .ok s → ∃ u, t.run act = .ok u ∧ t.Writes u act.target s := by
  cases act with
  | of r keys =>
    refine ⟨fun f hf => ?_, fun s hs => ⟨_, ?_, h.writes_renew r s⟩⟩
    · rw [run, show IndexSet.ofList? keys = .error f from hf]
      rfl
    · rw [run, show IndexSet.ofList? keys = .ok s from hs]
      rfl
  | insert r k =>
    refine ⟨fun f hf => ?_, fun s hs => ⟨_, ?_, h.writes_update r s⟩⟩
    · rw [run, show (t.get r).insert? k = .error f from hf]
      rfl
    · rw [run, show (t.get r).insert? k = .ok s from hs]
      rfl
  | erase r k =>
    refine ⟨fun f hf => ?_, fun s hs => ⟨_, ?_, h.writes_update r s⟩⟩
    · rw [run, show (t.get r).erase? k = .error f from hf]
      rfl
    · rw [run, show (t.get r).erase? k = .ok s from hs]
      rfl
  | union r a b =>
    refine ⟨fun f hf => (by cases hf), fun s hs => ⟨_, rfl, ?_⟩⟩
    obtain rfl := Except.ok.inj hs
    rw [h.unite_eq]
    exact h.writes_renew r _
  | copy r a =>
    refine ⟨fun f hf => (by cases hf), fun s hs => ⟨_, rfl, ?_⟩⟩
    obtain rfl := Except.ok.inj hs
    exact h.writes_renew r _
  | merge r a =>
    refine ⟨fun f hf => (by cases hf), fun s hs => ⟨_, rfl, ?_⟩⟩
    obtain rfl := Except.ok.inj hs
    exact h.writes_update r _

end SetTable

/-! ## Tables of codes -/

namespace CodeTable

/-- No two codes know the same address, and every address that is known is taken. -/
structure Separate (t : CodeTable) : Prop where
  apart : (t.handles.map CodeHandle.address).Nodup
  taken : ∀ h ∈ t.handles, h.address < t.store.slices.length

variable {t : CodeTable}

/-- Without codes nothing is shared. -/
theorem separate_empty : empty.Separate := by
  constructor
  · exact List.nodup_nil
  · intro h hh
    cases hh

/-- A handle reads the same code as long as its slice stays. -/
theorem load_congr {u : CodeTable} {h : CodeHandle} (hread : u.store.read? h.address = t.store.read? h.address) :
    u.load h = t.load h := by
  rw [load, load, hread]

/-- A new code shares nothing. -/
theorem Separate.add (h : t.Separate) (c : Code) : (t.add c).Separate := by
  constructor
  · simp only [CodeTable.add, Storage.alloc_address, List.map_append, List.map_cons, List.map_nil]
    rw [List.nodup_append]
    refine ⟨h.apart, List.nodup_singleton _, ?_⟩
    intro a ha b hb
    obtain ⟨g, hg, rfl⟩ := List.mem_map.mp ha
    rw [List.mem_singleton.mp hb]
    exact (h.taken g hg).ne
  · intro g hg
    simp only [CodeTable.add, Storage.length_alloc]
    rcases List.mem_append.mp hg with hg | hg
    · exact Nat.lt_succ_of_lt (h.taken g hg)
    · rw [List.mem_singleton.mp hg]
      exact Nat.lt_succ_self _

/-- One more code leaves the others alone. -/
theorem Separate.codes_add (h : t.Separate) (c : Code) : (t.add c).codes = t.codes ++ [c] := by
  have hnew : (t.add c).load ⟨t.store.slices.length, c.first, c.last, c.live⟩ = c := by
    simp only [load, CodeTable.add]
    rw [show t.store.slices.length = (t.store.alloc c.nodes).2 from rfl, Storage.read?_alloc_self]
    rfl
  rw [codes, show (t.add c).handles = t.handles ++ [⟨t.store.slices.length, c.first, c.last, c.live⟩] from rfl,
    List.map_append, List.map_singleton, hnew]
  congr 1
  apply List.map_congr_left
  intro g hg
  exact load_congr (t.store.read?_alloc_of_lt c.nodes (h.taken g hg))

/-- Writing a code in place shares nothing. -/
theorem Separate.update (h : t.Separate) {k : Nat} {g : CodeHandle} (hg : t.handles[k]? = some g) (c : Code) :
    (t.update k g c).Separate := by
  obtain ⟨hk, rfl⟩ := List.getElem?_eq_some_iff.mp hg
  have haddress : (t.update k t.handles[k] c).handles.map CodeHandle.address = t.handles.map CodeHandle.address := by
    simp only [CodeTable.update, List.map_set]
    rw [← List.getElem_map CodeHandle.address (h := by simpa using hk), List.set_getElem_self]
  constructor
  · rw [haddress]
    exact h.apart
  · intro g hg
    have hmem := List.mem_map_of_mem (f := CodeHandle.address) hg
    rw [haddress] at hmem
    obtain ⟨g', hg', heq⟩ := List.mem_map.mp hmem
    simp only [CodeTable.update, Storage.length_write]
    rw [← heq]
    exact h.taken g' hg'

/-- Changing a code where it lies leaves the others alone. -/
theorem Separate.codes_update (h : t.Separate) {k : Nat} {g : CodeHandle} (hg : t.handles[k]? = some g) (c : Code) :
    (t.update k g c).codes = t.codes.set k c := by
  obtain ⟨hk, rfl⟩ := List.getElem?_eq_some_iff.mp hg
  have htaken := h.taken _ (List.getElem_mem hk)
  apply List.ext_getElem
  · simp [codes, CodeTable.update]
  · intro i hi hi'
    have hlt : i < t.handles.length := by simpa [codes, CodeTable.update] using hi
    simp only [codes, CodeTable.update, List.getElem_map, List.getElem_set]
    split
    · rw [load, Storage.read?_write_self _ _ htaken]
      rfl
    · next hne =>
      apply load_congr
      apply Storage.read?_write_of_ne
      intro heq
      -- the addresses are those of two handles, and no two handles share one
      have hnodup := List.nodup_iff_injective_getElem.mp h.apart
      have hfin := @hnodup ⟨k, by simpa using hk⟩ ⟨i, by simpa using hlt⟩ (by simpa using heq)
      exact hne (Fin.mk.inj hfin)

end CodeTable

end CoordSplit
