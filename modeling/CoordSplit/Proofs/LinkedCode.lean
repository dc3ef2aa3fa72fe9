import CoordSplit.Pattern
import Mathlib.Data.List.Nodup
import Mathlib.Tactic

/-!
# The sequence behind the links of a code

A `Code` is a doubly linked list over an array of nodes. `Code.Holds c ls` says that following the links
gives exactly the instructions `ls` with their ids, and that every node which is not in `ls` has been
removed. Under it `Code.listing` is `ls` (`Holds.listing_eq`), and insertion, replacement and removal
are the operations of the same names on lists.

Nothing outside this file looks at a link.
-/

set_option autoImplicit false

namespace CoordSplit

/-- What stands at a position on the left of a pairing stands opposite to what is at this position. -/
theorem forall₂_getElem? {α β : Type} {R : α → β → Prop} {xs : List α} {ys : List β} (h : List.Forall₂ R xs ys)
    {k : Nat} {x : α} (hx : xs[k]? = some x) : ∃ y, ys[k]? = some y ∧ R x y := by
  obtain ⟨hk, rfl⟩ := List.getElem?_eq_some_iff.mp hx
  have hk' : k < ys.length := h.length_eq ▸ hk
  exact ⟨ys[k], List.getElem?_eq_getElem hk', h.get hk hk'⟩

namespace Code

/-- The id at the start of some lines, or the one that follows them if there are none. -/
def headId (ls : List (InsnId × Insn)) (stop : InsnId) : InsnId := (ls.head?.map Prod.fst).getD stop

/-- The id at the end of some lines, or the one that precedes them if there are none. -/
def lastId (start : InsnId) (ls : List (InsnId × Insn)) : InsnId := (ls.getLast?.map Prod.fst).getD start

@[simp] theorem headId_nil (stop : InsnId) : headId [] stop = stop := rfl

@[simp] theorem headId_cons (p : InsnId × Insn) (ls : List (InsnId × Insn)) (stop : InsnId) :
    headId (p :: ls) stop = p.1 := rfl

@[simp] theorem lastId_nil (start : InsnId) : lastId start [] = start := rfl

@[simp] theorem lastId_concat (start : InsnId) (ls : List (InsnId × Insn)) (p : InsnId × Insn) :
    lastId start (ls ++ [p]) = p.1 := by simp [lastId]

@[simp] theorem lastId_cons (start : InsnId) (p : InsnId × Insn) (ls : List (InsnId × Insn)) :
    lastId start (p :: ls) = lastId p.1 ls := by
  cases ls with
  | nil => rfl
  | cons q ls =>
    rw [lastId, lastId, List.getLast?_cons_cons, List.getLast?_eq_getLast_of_ne_nil (List.cons_ne_nil q ls)]
    rfl

theorem lastId_append (start : InsnId) (a b : List (InsnId × Insn)) :
    lastId start (a ++ b) = lastId (lastId start a) b := by
  induction a generalizing start with
  | nil => rfl
  | cons p a ih => rw [List.cons_append, lastId_cons, lastId_cons, ih]

@[simp] theorem headId_append (a b : List (InsnId × Insn)) (stop : InsnId) :
    headId (a ++ b) stop = headId a (headId b stop) := by
  cases a <;> rfl

/-- The nodes of some lines, which stand between `start` and `stop`, point at their neighbours. -/
def Linked (c : Code) : InsnId → List (InsnId × Insn) → InsnId → Prop
  | _, [], _ => True
  | start, (id, x) :: rest, stop =>
    c.node? id = some ⟨x, start, headId rest stop, false⟩ ∧ Linked c id rest stop

/-- Following the links of the code gives the lines `ls`, all other nodes have been removed, and the lines have been
counted. -/
structure Holds (c : Code) (ls : List (InsnId × Insn)) : Prop where
  first : c.first = headId ls .none
  last : c.last = lastId .none ls
  linked : Linked c .none ls .none
  nodup : (ls.map Prod.fst).Nodup
  complete : ∀ id n, c.node? id = some n → n.removed = false → id ∈ ls.map Prod.fst
  live : c.live = ls.length

/-- The links of the code form a list. -/
def WellLinked (c : Code) : Prop := c.Holds c.listing

/-! ## Nodes -/

theorem node?_eq_none_iff (c : Code) (id : InsnId) :
    c.node? id = none ↔ (id : Int) < 0 ∨ (c.nodes.size : Int) ≤ id := by
  match id with
  | .ofNat k => simp [node?]
  | .negSucc k => simp [node?, Int.negSucc_lt_zero]

variable {c d : Code} {id start stop : InsnId} {ls a b : List (InsnId × Insn)} {x : Insn} {p : InsnId × Insn}

theorem lt_size_of_node? {n : Node} (h : c.node? id = some n) : (0 : Int) ≤ id ∧ (id : Int) < c.nodes.size := by
  have hne : ¬ c.node? id = none := by simp [h]
  rw [node?_eq_none_iff, not_or, not_lt, not_le] at hne
  exact hne

/-- Changing a node changes no other one. -/
theorem node?_modify (c : Code) (id : InsnId) (f : Node → Node) (i : InsnId) :
    (c.modify id f).node? i = if i = id then (c.node? i).map f else c.node? i := by
  match id, i with
  | .ofNat k, .ofNat j =>
    simp only [modify, node?, Array.getElem?_modify, Int.ofNat.injEq]
    by_cases h : k = j
    · simp [h]
    · simp [h, Ne.symm h]
  | .ofNat k, .negSucc j => simp [node?]
  | .negSucc k, .ofNat j => simp [modify]
  | .negSucc k, .negSucc j => simp [node?]

@[simp] theorem size_nodes_modify (c : Code) (id : InsnId) (f : Node → Node) :
    (c.modify id f).nodes.size = c.nodes.size := by
  cases id <;> simp [modify]

@[simp] theorem first_modify (c : Code) (id : InsnId) (f : Node → Node) :
    (c.modify id f).first = c.first := by
  cases id <;> rfl

@[simp] theorem last_modify (c : Code) (id : InsnId) (f : Node → Node) :
    (c.modify id f).last = c.last := by
  cases id <;> rfl

@[simp] theorem live_modify (c : Code) (id : InsnId) (f : Node → Node) : (c.modify id f).live = c.live := by
  cases id <;> rfl

/-- A new id has its instruction, and is linked to nothing. -/
theorem node?_alloc (c : Code) (x : Insn) (i : InsnId) :
    (c.alloc x).1.node? i =
      if i = c.nodes.size then some ⟨x, .none, .none, false⟩ else c.node? i := by
  match i with
  | .ofNat j =>
    simp only [alloc, node?, Array.getElem?_push, Int.ofNat_eq_natCast, Int.natCast_inj]
  | .negSucc j => simp [node?]

/-! ## Linked lines -/

theorem lastId_mem (start : InsnId) (h : a ≠ []) : lastId start a ∈ a.map Prod.fst := by
  rw [lastId, List.getLast?_eq_getLast_of_ne_nil h]
  exact List.mem_map_of_mem (List.getLast_mem h)

/-- Lines stay linked when none of their nodes changes. -/
theorem Linked.congr (h : Linked c start ls stop) (same : ∀ id ∈ ls.map Prod.fst, d.node? id = c.node? id) :
    Linked d start ls stop := by
  induction ls generalizing start with
  | nil => trivial
  | cons p rest ih =>
    obtain ⟨id, x⟩ := p
    refine ⟨?_, ih h.2 fun i hi => same i (by simp [hi])⟩
    rw [same id (by simp)]
    exact h.1

theorem linked_append :
    Linked c start (a ++ b) stop ↔
      Linked c start a (headId b stop) ∧ Linked c (lastId start a) b stop := by
  induction a generalizing start with
  | nil => simp [Linked]
  | cons p rest ih =>
    obtain ⟨id, x⟩ := p
    simp only [List.cons_append, Linked, ih, lastId_cons, headId_append, and_assoc]

/-- The node of a line among linked ones. -/
theorem Linked.node?_eq (h : Linked c start (a ++ (id, x) :: b) stop) :
    c.node? id = some ⟨x, lastId start a, headId b stop, false⟩ :=
  (linked_append.mp h).2.1

/-- The line behind linked ones can be another if the last of them points to it. -/
theorem Linked.redirect_stop {stop' : InsnId} (h : Linked c start a stop) (nodup : (a.map Prod.fst).Nodup)
    (changed : ∀ id ∈ a.map Prod.fst, d.node? id =
      if id = lastId start a then (c.node? id).map fun n => { n with next := stop' } else c.node? id) :
    Linked d start a stop' := by
  induction a generalizing start with
  | nil => trivial
  | cons p rest ih =>
    obtain ⟨id, x⟩ := p
    rw [List.map_cons, List.nodup_cons] at nodup
    rw [lastId_cons] at changed
    refine ⟨?_, ih h.2 nodup.2 fun i hi => changed i (by simp [hi])⟩
    have here := changed id (by simp)
    rw [h.1] at here
    rw [here]
    cases rest with
    | nil => simp
    | cons q rest =>
      have hne : id ≠ lastId id (q :: rest) := fun heq =>
        nodup.1 (heq ▸ lastId_mem id (List.cons_ne_nil q rest))
      rw [if_neg hne]
      rfl

/-- The line before linked ones can be another if the first of them points to it. -/
theorem Linked.redirect_start {start' : InsnId} (h : Linked c start b stop) (nodup : (b.map Prod.fst).Nodup)
    (changed : ∀ id ∈ b.map Prod.fst, d.node? id =
      if id = headId b stop then (c.node? id).map fun n => { n with prev := start' } else c.node? id) :
    Linked d start' b stop := by
  cases b with
  | nil => trivial
  | cons p rest =>
    obtain ⟨id, x⟩ := p
    rw [List.map_cons, List.nodup_cons] at nodup
    refine ⟨?_, h.2.congr fun i hi => ?_⟩
    · have here := changed id (by simp)
      rw [h.1] at here
      simp [here]
    · have hne : i ≠ id := by
        rintro rfl
        exact nodup.1 hi
      simpa [hne] using changed i (by simp [hi])

/-! ## The listing -/

/-- Every line of a linked sequence has a node. -/
theorem Linked.exists_node (h : Linked c start ls stop) (hm : (id, x) ∈ ls) :
    ∃ n, c.node? id = some n ∧ n.insn = x ∧ n.removed = false := by
  obtain ⟨a, b, rfl⟩ := List.append_of_mem hm
  exact ⟨_, h.node?_eq, rfl, rfl⟩

/-- A walk along linked lines meets them in order, if it may meet that many. -/
theorem Linked.walk_eq {fuel : Nat} (h : Linked c start ls .none) (enough : ls.length ≤ fuel) :
    c.walk fuel (headId ls .none) = ls.map Prod.fst := by
  induction ls generalizing start fuel with
  | nil => cases fuel <;> rfl
  | cons p rest ih =>
    obtain ⟨id, x⟩ := p
    cases fuel with
    | zero => simp at enough
    | succ fuel =>
      rw [headId_cons, walk, h.1]
      simp only [List.map_cons, List.cons.injEq, true_and]
      exact ih h.2 (by simpa using enough)

/-- Different ids of nodes are at most as many as the nodes. -/
theorem Linked.length_le (h : Linked c start ls stop) (nodup : (ls.map Prod.fst).Nodup) : ls.length ≤ c.nodes.size := by
  have hlt : ∀ i ∈ (ls.map Prod.fst).map Int.toNat, i ∈ List.range c.nodes.size := by
    intro i hi
    simp only [List.map_map, List.mem_map, Function.comp_apply] at hi
    obtain ⟨⟨id, x⟩, hm, rfl⟩ := hi
    obtain ⟨n, hn, -⟩ := h.exists_node hm
    obtain ⟨hpos, hlt⟩ := lt_size_of_node? hn
    rw [List.mem_range]
    exact (Int.toNat_lt hpos).mpr hlt
  have hinj : ((ls.map Prod.fst).map Int.toNat).Nodup := by
    refine nodup.map_on ?_
    intro i hi j hj hij
    simp only [List.mem_map, Prod.exists, exists_and_right, exists_eq_right] at hi hj
    obtain ⟨x, hx⟩ := hi
    obtain ⟨y, hy⟩ := hj
    obtain ⟨n, hn, -⟩ := h.exists_node hx
    obtain ⟨m, hm, -⟩ := h.exists_node hy
    have hi := (lt_size_of_node? hn).1
    have hj := (lt_size_of_node? hm).1
    rw [← Int.toNat_of_nonneg hi, hij, Int.toNat_of_nonneg hj]
  have hsub := (hinj.subperm hlt).length_le
  simpa using hsub

theorem Holds.ids_eq (h : c.Holds ls) : c.ids = ls.map Prod.fst := by
  rw [ids, h.first]
  exact h.linked.walk_eq (h.linked.length_le h.nodup)

theorem Holds.get?_eq (h : c.Holds ls) (hm : (id, x) ∈ ls) : c.get? id = some x := by
  obtain ⟨n, hn, rfl, -⟩ := h.linked.exists_node hm
  simp [get?, hn]

/-- The listing of a code is what its links hold. -/
theorem Holds.listing_eq (h : c.Holds ls) : c.listing = ls := by
  rw [listing, h.ids_eq, List.filterMap_map]
  have hsome : ∀ p ∈ ls, ((fun id => (c.get? id).map fun x => (id, x)) ∘ Prod.fst) p = some p := by
    intro p hp
    simp [h.get?_eq hp]
  rw [List.filterMap_congr hsome, List.filterMap_some]

theorem Holds.wellLinked (h : c.Holds ls) : c.WellLinked := by
  rw [WellLinked, h.listing_eq]
  exact h

/-- The live ids are those of the lines. -/
theorem Holds.isLive_iff (h : c.Holds ls) (id : InsnId) : c.isLive id = true ↔ id ∈ ls.map Prod.fst := by
  constructor
  · intro hl
    rw [isLive] at hl
    cases hn : c.node? id with
    | none => simp [hn] at hl
    | some n => exact h.complete id n hn (by simpa [hn] using hl)
  · intro hm
    obtain ⟨⟨id, x⟩, hp, rfl⟩ := List.mem_map.mp hm
    obtain ⟨n, hn, -, hr⟩ := h.linked.exists_node hp
    simp [isLive, hn, hr]

theorem Holds.id_lt (h : c.Holds ls) (hm : id ∈ ls.map Prod.fst) : (0 : Int) ≤ id ∧ (id : Int) < c.nodes.size := by
  obtain ⟨⟨id, x⟩, hp, rfl⟩ := List.mem_map.mp hm
  obtain ⟨n, hn, -⟩ := h.linked.exists_node hp
  exact lt_size_of_node? hn

/-- A code whose count is not zero has lines. -/
theorem WellLinked.listing_ne_nil (h : c.WellLinked) (hsize : c.size ≠ 0) : c.listing ≠ [] := by
  intro hnil
  apply hsize
  rw [size, h.live, hnil, List.length_nil]

/-- The code without instructions holds none. -/
theorem holds_empty : empty.Holds [] := by
  refine ⟨rfl, rfl, trivial, List.nodup_nil, ?_, rfl⟩
  intro id n hn
  cases id <;> simp [empty, node?] at hn

/-! ## Insertion -/

theorem node?_congr (h : c.nodes = d.nodes) (i : InsnId) : c.node? i = d.node? i := by
  cases i <;> simp [node?, h]

/-- Linking changes the node itself and what its neighbours know of it. -/
theorem node?_link (c : Code) (prev id next i : InsnId) :
    (c.link prev id next).node? i =
      (((c.modify id fun n => { n with prev := prev, next := next }).modify prev
        fun n => { n with next := id }).modify next fun n => { n with prev := id }).node? i := by
  apply node?_congr
  rw [link]
  by_cases hp : prev = .none <;> by_cases hn : next = .none <;>
    simp only [hp, hn, if_true, if_false] <;> cases next <;> rfl

/-- Linking removes nothing and brings nothing back. -/
theorem removed_link (c : Code) (prev id next i : InsnId) :
    ((c.link prev id next).node? i).map Node.removed = (c.node? i).map Node.removed := by
  rw [node?_link]
  simp only [node?_modify]
  split_ifs <;> simp [Option.map_map, Function.comp_def]

theorem first_link (c : Code) (prev id next : InsnId) :
    (c.link prev id next).first = if prev = .none then id else c.first := by
  rw [link]
  by_cases hp : prev = .none <;> by_cases hn : next = .none <;> simp [hp, hn]

theorem last_link (c : Code) (prev id next : InsnId) :
    (c.link prev id next).last = if next = .none then id else c.last := by
  rw [link]
  by_cases hp : prev = .none <;> by_cases hn : next = .none <;> simp [hp, hn]

/-- Linking counts nothing. -/
@[simp] theorem live_link (c : Code) (prev id next : InsnId) : (c.link prev id next).live = c.live := by
  rw [link]
  by_cases hp : prev = .none <;> by_cases hn : next = .none <;> simp [hp, hn]

@[simp] theorem size_nodes_link (c : Code) (prev id next : InsnId) :
    (c.link prev id next).nodes.size = c.nodes.size := by
  rw [link]
  by_cases hp : prev = .none <;> by_cases hn : next = .none <;> simp [hp, hn]

theorem headId_mem (stop : InsnId) (h : b ≠ []) : headId b stop ∈ b.map Prod.fst := by
  obtain ⟨q, b', rfl⟩ := List.exists_cons_of_ne_nil h
  simp

theorem ne_lastId {i : InsnId} (hi : i ∉ a.map Prod.fst) (hnone : i ≠ .none) : i ≠ lastId .none a := by
  rintro rfl
  by_cases ha : a = []
  · exact hnone (by simp [ha])
  · exact hi (lastId_mem _ ha)

theorem ne_headId {i : InsnId} (hi : i ∉ b.map Prod.fst) (hnone : i ≠ .none) : i ≠ headId b .none := by
  rintro rfl
  by_cases hb : b = []
  · exact hnone (by simp [hb])
  · exact hi (headId_mem _ hb)

/-- No line has the id that refers to nothing. -/
theorem Holds.ne_none (h : c.Holds ls) (hm : id ∈ ls.map Prod.fst) : id ≠ .none := by
  rintro rfl
  exact absurd (h.id_lt hm).1 (by decide)

/-- Lines in two places have different ids, and the nearest one on the other side is none of them. -/
theorem Holds.apart (h : c.Holds ls) (hsub : (a ++ b).Sublist ls) :
    (a.map Prod.fst).Nodup ∧ (b.map Prod.fst).Nodup ∧ (∀ i ∈ a.map Prod.fst, i ≠ headId b .none) ∧
      ∀ i ∈ b.map Prod.fst, i ≠ lastId .none a := by
  have hids := hsub.map Prod.fst
  rw [List.map_append] at hids
  obtain ⟨nodupA, nodupB, disjoint⟩ := List.nodup_append.mp (h.nodup.sublist hids)
  refine ⟨nodupA, nodupB, fun i hi => ?_, fun i hi => ?_⟩
  · exact ne_headId (fun hb => disjoint i hi i hb rfl) (h.ne_none (hids.subset (List.mem_append_left _ hi)))
  · exact ne_lastId (fun ha => disjoint i ha i hi rfl) (h.ne_none (hids.subset (List.mem_append_right _ hi)))

/-- Another line is the first iff no line comes before it. -/
theorem Holds.first_eq (h : c.Holds (a ++ b)) (q : InsnId) :
    (if lastId .none a = .none then q else c.first) = headId a q := by
  by_cases ha : a = []
  · simp [ha]
  · rw [if_neg (h.ne_none (List.map_append ▸ List.mem_append_left _ (lastId_mem .none ha))), h.first]
    obtain ⟨p, a', rfl⟩ := List.exists_cons_of_ne_nil ha
    rfl

/-- Another line is the last iff no line comes behind it. -/
theorem Holds.last_eq (h : c.Holds (a ++ b)) (q : InsnId) :
    (if headId b .none = .none then q else c.last) = lastId q b := by
  by_cases hb : b = []
  · simp [hb]
  · rw [if_neg (h.ne_none (List.map_append ▸ List.mem_append_right _ (headId_mem .none hb))), h.last, lastId_append]
    obtain ⟨p, b', rfl⟩ := List.exists_cons_of_ne_nil hb
    simp

/-- What is left of a node that was not touched is in a line. -/
theorem Holds.mem_of_kept {n : Node} (h : c.Holds ls)
    (hkept : (d.node? id).map Node.removed = (c.node? id).map Node.removed) (hn : d.node? id = some n)
    (hr : n.removed = false) : id ∈ ls.map Prod.fst := by
  rw [hn] at hkept
  obtain ⟨m, hm, hmr⟩ := Option.map_eq_some_iff.mp hkept.symm
  exact h.complete id m hm (by rw [hmr, hr])

/-- A new id is linked in between two runs of lines. -/
theorem Holds.link (h : c.Holds (a ++ b)) (x : Insn) :
    ((c.alloc x).1.link (lastId .none a) c.nodes.size (headId b .none)).Holds
      (a ++ ((c.nodes.size : Int), x) :: b) := by
  have fresh : ∀ i ∈ (a ++ b).map Prod.fst, i ≠ (c.nodes.size : Int) := by
    rintro i hi rfl
    exact absurd (h.id_lt hi).2 (lt_irrefl _)
  have notMem := fun hm => fresh _ hm rfl
  rw [List.map_append] at fresh notMem
  have freshA := fun i hi => fresh i (List.mem_append_left _ hi)
  have freshB := fun i hi => fresh i (List.mem_append_right _ hi)
  have fresh_ne_none : (c.nodes.size : Int) ≠ InsnId.none := by
    intro heq
    have : (0 : Int) ≤ c.nodes.size := Int.natCast_nonneg _
    rw [heq] at this
    exact absurd this (by decide)
  obtain ⟨nodupA, nodupB, notHead, notLast⟩ := h.apart (List.Sublist.refl _)
  have lastFresh : (c.nodes.size : Int) ≠ lastId .none a :=
    ne_lastId (fun ha => freshA _ ha rfl) fresh_ne_none
  have headFresh : (c.nodes.size : Int) ≠ headId b .none :=
    ne_headId (fun hb => freshB _ hb rfl) fresh_ne_none
  have hlinked := linked_append.mp h.linked
  refine ⟨?_, ?_, linked_append.mpr ⟨?_, ?_, ?_⟩, ?_, ?_, ?_⟩
  · rw [first_link, headId_append]
    exact h.first_eq _
  · rw [last_link, lastId_append, lastId_cons]
    exact h.last_eq _
  · refine hlinked.1.redirect_stop nodupA fun i hi => ?_
    rw [node?_link, node?_modify, if_neg (notHead i hi), node?_modify, node?_modify,
      if_neg (freshA i hi), node?_alloc, if_neg (freshA i hi)]
    rfl
  · rw [node?_link, node?_modify, if_neg headFresh, node?_modify, if_neg lastFresh, node?_modify,
      if_pos rfl, node?_alloc, if_pos rfl]
    rfl
  · refine hlinked.2.redirect_start nodupB fun i hi => ?_
    rw [node?_link, node?_modify, node?_modify, if_neg (notLast i hi), node?_modify,
      if_neg (freshB i hi), node?_alloc, if_neg (freshB i hi)]
  · rw [List.map_append, List.map_cons, List.nodup_middle, List.nodup_cons]
    exact ⟨notMem, List.map_append ▸ h.nodup⟩
  · intro i n hn hr
    by_cases hi : i = (c.nodes.size : Int)
    · simp [hi]
    · have hmem := h.mem_of_kept ((removed_link _ _ _ _ i).trans (by rw [node?_alloc, if_neg hi])) hn hr
      simp only [List.map_append, List.map_cons, List.mem_append, List.mem_cons] at hmem ⊢
      exact hmem.imp_right .inr
  · rw [live_link, alloc, h.live, List.length_append, List.length_append, List.length_cons, Nat.add_assoc]

theorem size_nodes_link_alloc (c : Code) (x : Insn) (prev id next : InsnId) :
    ((c.alloc x).1.link prev id next).nodes.size = c.nodes.size + 1 := by
  rw [size_nodes_link]
  simp [alloc]

/-- The lines that a list of instructions makes up when ids are given out from `n` on. -/
def numbered (n : Nat) (xs : List Insn) : List (InsnId × Insn) :=
  xs.zipIdx.map fun p => (((n + p.2 : Nat) : Int), p.1)

@[simp] theorem numbered_nil (n : Nat) : numbered n [] = [] := rfl

theorem numbered_cons (n : Nat) (x : Insn) (xs : List Insn) :
    numbered n (x :: xs) = ((n : Int), x) :: numbered (n + 1) xs := by
  rw [numbered, numbered, List.zipIdx_cons, List.map_cons, Nat.zero_add, List.zipIdx_succ, List.map_map]
  simp only [Nat.add_zero, List.cons.injEq, true_and]
  refine List.map_congr_left fun p _ => ?_
  simp only [Function.comp_apply, Prod.mk.injEq, Nat.cast_inj, and_true]
  omega

theorem numbered_append (n : Nat) (xs ys : List Insn) :
    numbered n (xs ++ ys) = numbered n xs ++ numbered (n + xs.length) ys := by
  induction xs generalizing n with
  | nil => simp
  | cons x xs ih =>
    simp only [List.cons_append, numbered_cons, ih, List.length_cons]
    rw [show n + 1 + xs.length = n + (xs.length + 1) by omega]

/-- Numbered lines have ids from `n` on. -/
theorem le_of_mem_numbered {n : Nat} {xs : List Insn} (h : p ∈ numbered n xs) : (n : Int) ≤ p.1 := by
  simp only [numbered, List.mem_map] at h
  obtain ⟨q, -, rfl⟩ := h
  simp

@[simp] theorem map_snd_numbered (n : Nat) (xs : List Insn) : (numbered n xs).map Prod.snd = xs := by
  induction xs generalizing n with
  | nil => rfl
  | cons x xs ih => simp [numbered_cons, ih]

/-- Instructions linked in between two runs of lines stand there in order. -/
theorem Holds.insertBetween (h : c.Holds (a ++ b)) (xs : List Insn) :
    (c.insertBetween (lastId .none a) (headId b .none) xs).1.Holds
        (a ++ numbered c.nodes.size xs ++ b) ∧
      (c.insertBetween (lastId .none a) (headId b .none) xs).2 =
        (numbered c.nodes.size xs).map Prod.fst ∧
      (c.insertBetween (lastId .none a) (headId b .none) xs).1.nodes.size = c.nodes.size + xs.length := by
  induction xs generalizing c a with
  | nil => simpa [Code.insertBetween] using h
  | cons x xs ih =>
    have hlink := h.link x
    rw [List.append_cons] at hlink
    have hrest := ih hlink
    rw [lastId_concat, size_nodes_link_alloc] at hrest
    obtain ⟨held, ids, size⟩ := hrest
    rw [numbered_cons, Code.insertBetween]
    refine ⟨?_, ?_, ?_⟩
    · rw [List.append_assoc, List.append_assoc, List.singleton_append] at held
      rw [List.append_assoc, List.cons_append]
      exact held
    · rw [List.map_cons, ← ids]
      rfl
    · rw [List.length_cons, ← Nat.add_assoc, Nat.add_right_comm]
      exact size

/-- Instructions inserted before a line stand there in order. -/
theorem Holds.insertBefore (h : c.Holds (a ++ p :: b)) (xs : List Insn) :
    ∃ d, c.insertBefore p.1 xs = (d, .ok ((numbered c.nodes.size xs).map Prod.fst)) ∧
      d.Holds (a ++ numbered c.nodes.size xs ++ p :: b) ∧ d.nodes.size = c.nodes.size + xs.length := by
  obtain ⟨id, x⟩ := p
  have hne : id ≠ .none := h.ne_none (by simp)
  obtain ⟨held, ids, size⟩ := h.insertBetween xs
  refine ⟨_, ?_, held, size⟩
  simp only [Code.insertBefore, if_neg hne, h.linked.node?_eq, ← ids]
  rfl

/-- Instructions inserted behind a line stand there in order. -/
theorem Holds.insertAfter (h : c.Holds (a ++ p :: b)) (xs : List Insn) :
    ∃ d, c.insertAfter p.1 xs = (d, .ok ((numbered c.nodes.size xs).map Prod.fst)) ∧
      d.Holds (a ++ p :: (numbered c.nodes.size xs ++ b)) ∧
      d.nodes.size = c.nodes.size + xs.length := by
  induction xs generalizing c a p with
  | nil => exact ⟨c, rfl, h, rfl⟩
  | cons x xs ih =>
    obtain ⟨id, y⟩ := p
    have hlink := (List.append_cons a (id, y) b ▸ h).link x
    rw [lastId_concat, List.append_assoc, List.singleton_append] at hlink
    have hnode : (c.alloc x).1.node? id = some ⟨y, lastId .none a, headId b .none, false⟩ := by
      have hm : id ∈ (a ++ (id, y) :: b).map Prod.fst := by simp
      rw [node?_alloc, if_neg (ne_of_lt (h.id_lt hm).2)]
      exact h.linked.node?_eq
    rw [List.append_cons] at hlink
    obtain ⟨d, hd, held, size⟩ := ih hlink
    rw [size_nodes_link_alloc] at hd held size
    refine ⟨d, ?_, ?_, ?_⟩
    · rw [Code.insertAfter]
      simp only [hnode, numbered_cons, List.map_cons]
      rw [show ((c.alloc x).2 : InsnId) = (c.nodes.size : Int) from rfl, hd]
      rfl
    · rw [List.append_assoc, List.singleton_append] at held
      rw [numbered_cons, List.cons_append]
      exact held
    · rw [size, List.length_cons]
      omega

/-- An instruction put at the end stands behind all others. -/
theorem Holds.append (h : c.Holds ls) (x : Insn) :
    ∃ d, c.append x = (d, .ok (c.nodes.size : Int)) ∧ d.Holds (ls ++ [((c.nodes.size : Int), x)]) ∧
      d.nodes.size = c.nodes.size + 1 := by
  rcases List.eq_nil_or_concat ls with rfl | ⟨ls, p, rfl⟩
  · have hlast : c.last = .none := h.last
    refine ⟨{ (c.alloc x).1 with first := c.nodes.size, last := c.nodes.size }, ?_, ?_, ?_⟩
    · simp only [Code.append, hlast, if_true]
      rfl
    · have hnode : ∀ i, ({ (c.alloc x).1 with first := c.nodes.size, last := c.nodes.size } : Code).node? i =
          (c.alloc x).1.node? i := node?_congr rfl
      refine ⟨rfl, rfl, ⟨?_, trivial⟩, by simp, ?_, ?_⟩
      · rw [hnode, node?_alloc, if_pos rfl]
        rfl
      · intro i n hn hr
        rw [hnode, node?_alloc] at hn
        by_cases hi : i = (c.nodes.size : Int)
        · simp [hi]
        · rw [if_neg hi] at hn
          exact absurd (h.complete i n hn hr) (by simp)
      · simp [alloc, h.live]
    · simp [alloc]
  · rw [List.concat_eq_append] at h ⊢
    have hlast : c.last = p.1 := by rw [h.last, lastId_concat]
    have hne : p.1 ≠ .none := h.ne_none (by simp)
    obtain ⟨d, hd, held, size⟩ := h.insertAfter [x]
    refine ⟨d, ?_, ?_, size⟩
    · simp only [Code.append, hlast, if_neg hne, hd, numbered_cons]
      rfl
    · simpa [numbered_cons] using held

/-- Instructions put at the end one after the other stand there in order. -/
theorem Holds.appendAll (h : c.Holds ls) (xs : List Insn) :
    ∃ d, c.appendAll xs = (d, .ok ((numbered c.nodes.size xs).map Prod.fst)) ∧
      d.Holds (ls ++ numbered c.nodes.size xs) ∧ d.nodes.size = c.nodes.size + xs.length := by
  induction xs generalizing c ls with
  | nil => exact ⟨c, rfl, by simpa using h, rfl⟩
  | cons x xs ih =>
    obtain ⟨c', hc', held, size⟩ := h.append x
    obtain ⟨d, hd, held', size'⟩ := ih held
    rw [size] at hd held' size'
    refine ⟨d, ?_, ?_, ?_⟩
    · rw [Code.appendAll, hc']
      simp only [hd, numbered_cons, List.map_cons]
      rfl
    · rw [List.append_assoc, List.singleton_append] at held'
      rw [numbered_cons]
      exact held'
    · rw [size', List.length_cons]
      omega

/-- The code of a list of instructions holds them, with ids from zero on. -/
theorem holds_ofList (xs : List Insn) : (ofList xs).Holds (numbered 0 xs) := by
  obtain ⟨d, hd, held, -⟩ := holds_empty.appendAll xs
  rw [ofList, hd]
  exact held

/-! ## Removal and replacement -/

/-- What removing an instruction does to the nodes, to the ends of the sequence and to the count. -/
theorem remove_eq {n : Node} (hn : c.node? id = some n) (live : n.removed = false) (hx : n.insn.isLabel = false) :
    ∃ d, c.remove id = .ok d ∧
      (∀ i, d.node? i = (((c.modify n.prev fun m => { m with next := n.next }).modify n.next
        fun m => { m with prev := n.prev }).modify id
          fun m => { m with prev := .none, next := .none, removed := true }).node? i) ∧
      d.first = (if n.prev = .none then n.next else c.first) ∧
      d.last = (if n.next = .none then n.prev else c.last) ∧ d.nodes.size = c.nodes.size ∧ d.live = c.live - 1 := by
  simp only [Code.remove, hn, live, hx, Bool.false_eq_true, if_false, Except.ok.injEq, exists_eq_left']
  refine ⟨fun i => node?_congr ?_ i, ?_, ?_, ?_, ?_⟩
  · by_cases hp : n.prev = .none <;> by_cases hq : n.next = .none <;>
      simp only [hp, hq, if_true, if_false] <;> cases n.next <;> cases id <;> rfl
  -- the ends, the size and the count only depend on whether there are neighbours
  all_goals by_cases hp : n.prev = .none <;> by_cases hq : n.next = .none <;> simp [hp, hq]

/-- An instruction that is no label can be removed, and leaves its neighbours side by side. -/
theorem Holds.remove (h : c.Holds (a ++ (id, x) :: b)) (hx : x.isLabel = false) :
    ∃ d, c.remove id = .ok d ∧ d.Holds (a ++ b) ∧ d.nodes.size = c.nodes.size := by
  obtain ⟨d, hd, hnode, hfirst, hlast, hsize, hlive⟩ := remove_eq h.linked.node?_eq rfl hx
  refine ⟨d, hd, ?_, hsize⟩
  have hnodup := h.nodup
  rw [List.map_append, List.map_cons, List.nodup_middle, List.nodup_cons, ← List.map_append] at hnodup
  obtain ⟨notMem, nodup⟩ := hnodup
  rw [List.map_append] at notMem
  have otherA : ∀ i ∈ a.map Prod.fst, i ≠ id := fun i hi heq => notMem (heq ▸ List.mem_append_left _ hi)
  have otherB : ∀ i ∈ b.map Prod.fst, i ≠ id := fun i hi heq => notMem (heq ▸ List.mem_append_right _ hi)
  obtain ⟨nodupA, nodupB, notHead, notLast⟩ := h.apart ((List.sublist_cons_self _ b).append_left a)
  have hlinked := linked_append.mp h.linked
  refine ⟨?_, ?_, linked_append.mpr ⟨?_, ?_⟩, nodup, ?_, ?_⟩
  · rw [hfirst, headId_append]
    exact h.first_eq _
  · rw [hlast, lastId_append]
    exact (List.append_cons a (id, x) b ▸ h).last_eq _
  · refine hlinked.1.redirect_stop nodupA fun i hi => ?_
    rw [hnode, node?_modify, if_neg (otherA i hi), node?_modify, if_neg (notHead i hi), node?_modify]
  · refine hlinked.2.2.redirect_start nodupB fun i hi => ?_
    rw [hnode, node?_modify, if_neg (otherB i hi), node?_modify, node?_modify, if_neg (notLast i hi)]
  · intro i n hn hr
    by_cases hi : i = id
    · rw [hnode, node?_modify, if_pos hi] at hn
      obtain ⟨m, -, rfl⟩ := Option.map_eq_some_iff.mp hn
      simp at hr
    · have hkept : (d.node? i).map Node.removed = (c.node? i).map Node.removed := by
        rw [hnode]
        simp only [node?_modify, if_neg hi]
        split_ifs <;> simp [Option.map_map, Function.comp_def]
      have hmem := h.mem_of_kept hkept hn hr
      simp only [List.map_append, List.map_cons, List.mem_append, List.mem_cons] at hmem ⊢
      exact hmem.imp_right fun hb => hb.resolve_left hi
  · rw [hlive, h.live, List.length_append, List.length_append, List.length_cons, ← Nat.add_assoc, Nat.add_sub_cancel]

/-- Instructions among which there is no label can be removed together. -/
theorem Holds.removeAll {w : List (InsnId × Insn)} (h : c.Holds (a ++ w ++ b)) (hw : ∀ p ∈ w, p.2.isLabel = false) :
    ∃ d, c.removeAll (w.map Prod.fst) = .ok d ∧ d.Holds (a ++ b) ∧ d.nodes.size = c.nodes.size := by
  induction w generalizing c with
  | nil => exact ⟨c, rfl, by simpa using h, rfl⟩
  | cons p w ih =>
    obtain ⟨id, x⟩ := p
    rw [List.append_assoc, List.cons_append] at h
    obtain ⟨c', hc', held, size⟩ := h.remove (hw (id, x) (by simp))
    rw [← List.append_assoc] at held
    obtain ⟨d, hd, held, size'⟩ := ih held fun p hp => hw p (by simp [hp])
    refine ⟨d, ?_, held, size'.trans size⟩
    rw [List.map_cons, Code.removeAll, hc']
    exact hd

/-- A run of lines without a label gives way to instructions. -/
theorem Holds.replace {w : List (InsnId × Insn)} (h : c.Holds (a ++ w ++ b))
    (hne : w ≠ []) (hw : ∀ p ∈ w, p.2.isLabel = false) (out : List Insn) :
    ∃ d, c.replace (headId w .none) (w.map Prod.fst) out = .ok d ∧
      d.Holds (a ++ numbered c.nodes.size out ++ b) ∧ d.nodes.size = c.nodes.size + out.length := by
  obtain ⟨p, w', rfl⟩ := List.exists_cons_of_ne_nil hne
  rw [List.append_assoc, List.cons_append] at h
  obtain ⟨c', hc', held, size⟩ := h.insertBefore out
  rw [← List.cons_append, ← List.append_assoc] at held
  obtain ⟨d, hd, held, size'⟩ := held.removeAll hw
  refine ⟨d, ?_, held, size'.trans size⟩
  rw [Code.replace, headId_cons, hc']
  simp only [Outcome.ofFault, bind, Except.bind, hd]
  rfl

/-- The instruction of a line can be changed in place. -/
theorem Holds.set (h : c.Holds (a ++ (id, x) :: b)) (y : Insn) :
    ∃ d, c.set id y = .ok d ∧ d.Holds (a ++ (id, y) :: b) ∧ d.nodes.size = c.nodes.size := by
  have hnodup := h.nodup
  rw [List.map_append, List.map_cons, List.nodup_middle, List.nodup_cons, ← List.map_append] at hnodup
  have other : ∀ i ∈ (a ++ b).map Prod.fst, (c.modify id fun n => { n with insn := y }).node? i = c.node? i := by
    intro i hi
    rw [node?_modify, if_neg]
    rintro rfl
    exact hnodup.1 hi
  have hlinked := linked_append.mp h.linked
  refine ⟨c.modify id fun n => { n with insn := y }, ?_, ⟨?_, ?_, linked_append.mpr ⟨?_, ?_, ?_⟩, ?_, ?_, ?_⟩, ?_⟩
  · simp [Code.set, h.linked.node?_eq]
  · rw [first_modify, h.first]
    simp
  · rw [last_modify, h.last, lastId_append, lastId_append, lastId_cons, lastId_cons]
  · exact hlinked.1.congr fun i hi => other i (by simp only [List.map_append, List.mem_append]; exact .inl hi)
  · rw [node?_modify, if_pos rfl, hlinked.2.1]
    rfl
  · exact hlinked.2.2.congr fun i hi => other i (by simp only [List.map_append, List.mem_append]; exact .inr hi)
  · simpa using h.nodup
  · intro i n hn hr
    have hkept : ((c.modify id fun n => { n with insn := y }).node? i).map Node.removed =
        (c.node? i).map Node.removed := by
      rw [node?_modify]
      split_ifs <;> simp [Option.map_map, Function.comp_def]
    simpa using h.mem_of_kept hkept hn hr
  · rw [live_modify, h.live]
    simp
  · simp

/-! ## Positions -/

/-- Where the ids of a list are written by position. -/
theorem getElem?_foldl_set (ids : List InsnId) (n : Nat) (a : Array Int) (k : Nat)
    (hnodup : (ids.map Int.toNat).Nodup) (hlt : ∀ id ∈ ids, id.toNat < a.size) :
    ((ids.zipIdx n).foldl (fun a p => a.setIfInBounds p.1.toNat p.2) a)[k]? =
      if k ∈ ids.map Int.toNat then some ((n + (ids.map Int.toNat).idxOf k : Nat) : Int) else a[k]? := by
  induction ids generalizing n a with
  | nil => simp
  | cons id ids ih =>
    rw [List.map_cons, List.nodup_cons] at hnodup
    rw [List.zipIdx_cons, List.foldl_cons, ih _ _ hnodup.2 (by simpa using fun i hi => hlt i (by simp [hi]))]
    by_cases hk : k = id.toNat
    · subst hk
      simp [hnodup.1, hlt id]
    · have hne : id.toNat ≠ k := fun h => hk h.symm
      simp only [List.map_cons, List.mem_cons, hk, false_or, List.idxOf_cons_ne _ hne]
      split
      · congr 2
        omega
      · rw [Array.getElem?_setIfInBounds_ne hne]

theorem size_index (c : Code) : c.index.size = c.nodes.size := by
  have hfold : ∀ (ps : List (InsnId × Nat)) (a : Array Int),
      (ps.foldl (fun a p => a.setIfInBounds p.1.toNat p.2) a).size = a.size := by
    intro ps
    induction ps with
    | nil => simp
    | cons p ps ih => simp [ih]
  simp [index, hfold]

/-- Every id of the sequence has an instruction. -/
theorem length_listing (c : Code) : c.listing.length = c.ids.length := by
  have hwalk : ∀ fuel id, ∀ i ∈ c.walk fuel id, (c.get? i).isSome = true := by
    intro fuel
    induction fuel with
    | zero => simp [walk]
    | succ fuel ih =>
      intro id i hi
      rw [walk] at hi
      split at hi
      · next n hn =>
        rcases List.mem_cons.mp hi with rfl | hi
        · simp [get?, hn]
        · exact ih _ i hi
      · cases hi
  rw [listing, List.length_filterMap_eq_countP, List.countP_eq_length]
  intro i hi
  simpa using hwalk _ _ i hi

/-- Whatever the links of a code are, its positions lie in it. -/
theorem lt_of_getElem?_index (c : Code) {k p : Nat} (h : c.index[k]? = some (p : Int)) : p < c.listing.length := by
  have hfold : ∀ (ids : List InsnId) (n : Nat) (a : Array Int), (∀ k p : Nat, a[k]? = some (p : Int) → p < n) →
      ∀ k p : Nat, ((ids.zipIdx n).foldl (fun a p => a.setIfInBounds p.1.toNat p.2) a)[k]? = some (p : Int) →
        p < n + ids.length := by
    intro ids
    induction ids with
    | nil => exact fun n a ha k p h => ha k p h
    | cons id ids ih =>
      intro n a ha k p h
      rw [List.zipIdx_cons, List.foldl_cons] at h
      have hlt := ih (n + 1) _ (fun k p hk => ?_) k p h
      · rw [List.length_cons]
        omega
      · rw [Array.getElem?_setIfInBounds] at hk
        split at hk
        · split at hk
          · have := Int.natCast_inj.mp (Option.some.inj hk)
            omega
          · cases hk
        · exact (ha k p hk).trans (Nat.lt_succ_self n)
  rw [length_listing, ← Nat.zero_add c.ids.length]
  refine hfold c.ids 0 _ (fun k p hk => ?_) k p h
  rw [Array.getElem?_replicate] at hk
  split at hk
  · have := Option.some.inj hk
    omega
  · cases hk

theorem Holds.nodup_toNat (h : c.Holds ls) : ((ls.map Prod.fst).map Int.toNat).Nodup := by
  refine List.Nodup.map_on ?_ h.nodup
  intro id hid id' hid' heq
  rw [← Int.toNat_of_nonneg (h.id_lt hid).1, heq, Int.toNat_of_nonneg (h.id_lt hid').1]

theorem Holds.getElem?_index (h : c.Holds ls) (k : Nat) :
    c.index[k]? = if k ∈ (ls.map Prod.fst).map Int.toNat then
        some ((((ls.map Prod.fst).map Int.toNat).idxOf k : Nat) : Int)
      else if k < c.nodes.size then some (-1) else none := by
  have hlt : ∀ id ∈ ls.map Prod.fst, id.toNat < (Array.replicate c.nodes.size (-1 : Int)).size := by
    intro id hid
    rw [Array.size_replicate]
    exact (Int.toNat_lt (h.id_lt hid).1).mpr (h.id_lt hid).2
  rw [index, h.ids_eq, getElem?_foldl_set _ 0 _ k h.nodup_toNat hlt, Array.getElem?_replicate, Nat.zero_add]

/-- The index knows the position of every line, and of nothing else. -/
theorem Holds.index_eq_some_iff (h : c.Holds ls) (k p : Nat) :
    c.index[k]? = some (p : Int) ↔ (ls.map Prod.fst)[p]? = some (k : Int) := by
  rw [h.getElem?_index]
  constructor
  · intro hk
    split at hk
    · next hmem =>
      simp only [Option.some.injEq, Nat.cast_inj] at hk
      have hget := List.getElem?_idxOf hmem
      rw [hk, List.getElem?_map, Option.map_eq_some_iff] at hget
      obtain ⟨id, hid, heq⟩ := hget
      rw [hid, ← heq, Int.toNat_of_nonneg (h.id_lt (List.mem_of_getElem? hid)).1]
    · split at hk
      · exact absurd (Option.some.inj hk) (by omega)
      · simp at hk
  · intro hp
    have hget : ((ls.map Prod.fst).map Int.toNat)[p]? = some k := by
      rw [List.getElem?_map, hp]
      simp
    rw [if_pos (List.mem_of_getElem? hget)]
    obtain ⟨hlen, heq⟩ := List.getElem?_eq_some_iff.mp hget
    rw [← heq, h.nodup_toNat.idxOf_getElem]

/-- The index knows no position of an id that is in no line. -/
theorem Holds.index_eq_neg_one (h : c.Holds ls) {k : Nat}
    (hk : k < c.nodes.size) (hdead : (k : Int) ∉ ls.map Prod.fst) : c.index[k]? = some (-1) := by
  rw [h.getElem?_index, if_neg, if_pos hk]
  intro hmem
  obtain ⟨id, hid, rfl⟩ := List.mem_map.mp hmem
  rw [Int.toNat_of_nonneg (h.id_lt hid).1] at hdead
  exact hdead hid

end Code

end CoordSplit
