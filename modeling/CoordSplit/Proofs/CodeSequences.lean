import CoordSplit.Proofs.LinkedCode
import CoordSplit.Proofs.SharedStorage

/-!
# Codes are sequences

A program works on codes by edits: it appends, inserts, removes and replaces instructions, and it copies a code and
goes on with both. The nodes of the codes lie in one storage, where an edit changes a slice and a copy takes a new one.
Beside the codes stand plain sequences of instructions with their ids (`Code.Sequence`), on which the edits are the
obvious operations on lists, and new ids are the next natural numbers.

Every session on codes is a session on sequences with the same answers (`CodeTable.session_refines`), and at its end
each code shows its sequence (`Code.Shows`): followed forwards and backwards from its ends it visits the same ids, its
length, its index and its instructions are those of the sequence, and every other id is dead.
-/

set_option autoImplicit false

namespace CoordSplit

namespace Code

/-! ## Edits -/

/-- Instructions are put in and replaced at live ids, or put in at the end. Any id may be asked to be removed. -/
def Edit.Legal (c : Code) : Edit → Prop
  | .append _ | .remove _ => True
  | .insertBefore id _ => id = .none ∨ c.isLive id = true
  | .insertAfter id _ | .set id _ => c.isLive id = true

/-! ## Sequences -/

/-- A sequence of instructions with their ids, and the number of ids that were given out for it. -/
structure Sequence where
  lines : List (InsnId × Insn)
  issued : Nat

/-- What an edit makes of a sequence, and what is answered. New lines are numbered from the next id on and stand
together at their place. A label or an id that is not in the sequence is not removed, and then the sequence stays. -/
inductive Sequence.Edits (s : Sequence) : Edit → Sequence → Reply → Prop
  | append (x : Insn) : Edits s (.append x) ⟨s.lines ++ [((s.issued : Int), x)], s.issued + 1⟩ (.ids [(s.issued : Int)])
  | insertAtEnd (xs : List Insn) : Edits s (.insertBefore .none xs)
      ⟨s.lines ++ numbered s.issued xs, s.issued + xs.length⟩ (.ids ((numbered s.issued xs).map Prod.fst))
  | insertBefore {a b : List (InsnId × Insn)} {id : InsnId} {y : Insn} (h : s.lines = a ++ (id, y) :: b)
      (xs : List Insn) : Edits s (.insertBefore id xs)
      ⟨a ++ numbered s.issued xs ++ (id, y) :: b, s.issued + xs.length⟩ (.ids ((numbered s.issued xs).map Prod.fst))
  | insertAfter {a b : List (InsnId × Insn)} {id : InsnId} {y : Insn} (h : s.lines = a ++ (id, y) :: b)
      (xs : List Insn) : Edits s (.insertAfter id xs)
      ⟨a ++ (id, y) :: (numbered s.issued xs ++ b), s.issued + xs.length⟩ (.ids ((numbered s.issued xs).map Prod.fst))
  | remove {a b : List (InsnId × Insn)} {id : InsnId} {y : Insn} (h : s.lines = a ++ (id, y) :: b)
      (hy : y.isLabel = false) : Edits s (.remove id) ⟨a ++ b, s.issued⟩ .done
  | removeLabel {id : InsnId} {y : Insn} (h : (id, y) ∈ s.lines) (hy : y.isLabel = true) :
      Edits s (.remove id) s (.refused (.label id))
  | removeDead {id : InsnId} (h : id ∉ s.lines.map Prod.fst) : Edits s (.remove id) s (.refused (.dead id))
  | set {a b : List (InsnId × Insn)} {id : InsnId} {y : Insn} (h : s.lines = a ++ (id, y) :: b) (x : Insn) :
      Edits s (.set id x) ⟨a ++ (id, x) :: b, s.issued⟩ .done

/-- The links of a code hold a sequence, and it has given out as many ids. -/
structure Represents (c : Code) (s : Sequence) : Prop where
  holds : c.Holds s.lines
  issued : c.nodes.size = s.issued

variable {c : Code} {s : Sequence} {ls : List (InsnId × Insn)}

/-! ## One edit -/

variable {id : InsnId}

/-- A line that is live is in the sequence. -/
theorem Holds.split_of_isLive (h : c.Holds ls) (hlive : c.isLive id = true) : ∃ a y b, ls = a ++ (id, y) :: b := by
  obtain ⟨⟨i, y⟩, hmem, rfl⟩ := List.mem_map.mp ((h.isLive_iff id).mp hlive)
  obtain ⟨a, b, hab⟩ := List.append_of_mem hmem
  exact ⟨a, y, b, hab⟩

/-- Instructions inserted before no line stand behind all others. -/
theorem Holds.insertBefore_none (h : c.Holds ls) (xs : List Insn) :
    ∃ d, c.insertBefore .none xs = (d, .ok ((numbered c.nodes.size xs).map Prod.fst)) ∧
      d.Holds (ls ++ numbered c.nodes.size xs) ∧ d.nodes.size = c.nodes.size + xs.length := by
  rcases List.eq_nil_or_concat ls with rfl | ⟨ls, p, rfl⟩
  · have hlast : c.last = .none := h.last
    obtain ⟨d, hd, held, size⟩ := h.appendAll xs
    exact ⟨d, by simpa only [Code.insertBefore, hlast, if_true] using hd, held, size⟩
  · rw [List.concat_eq_append] at h ⊢
    have hlast : c.last = p.1 := by rw [h.last, lastId_concat]
    have hne : p.1 ≠ .none := h.ne_none (by simp)
    obtain ⟨d, hd, held, size⟩ := h.insertAfter xs
    refine ⟨d, ?_, by simpa using held, size⟩
    simpa only [Code.insertBefore, hlast, if_true, if_neg hne] using hd

/-- A label is not removed. -/
theorem Holds.remove_label (h : c.Holds ls) {y : Insn} (hmem : (id, y) ∈ ls) (hy : y.isLabel = true) :
    c.remove id = .error (.label id) := by
  obtain ⟨n, hn, rfl, hlive⟩ := h.linked.exists_node hmem
  simp [Code.remove, hn, hlive, hy]

/-- A line that is not in the sequence is not removed. -/
theorem Holds.remove_dead (h : c.Holds ls) (hdead : id ∉ ls.map Prod.fst) : c.remove id = .error (.dead id) := by
  unfold Code.remove
  cases hn : c.node? id with
  | none => rfl
  | some n =>
    cases hr : n.removed with
    | true => simp [hr]
    | false => exact absurd (h.complete id n hn hr) hdead

/-- A legal edit does to a code what it does to the sequence that the code represents, with the same answer. -/
theorem Represents.edit (h : c.Represents s) {e : Edit} (legal : e.Legal c) :
    ∃ s', s.Edits e s' (c.edit e).2 ∧ (c.edit e).1.Represents s' := by
  obtain ⟨ls, n⟩ := s
  obtain ⟨h, hn⟩ := h
  simp only at h hn
  subst hn
  cases e with
  | append x =>
    obtain ⟨d, hd, held, size⟩ := h.append x
    simp only [Code.edit, hd]
    exact ⟨_, .append x, held, size⟩
  | insertBefore id xs =>
    rcases legal with rfl | hlive
    · obtain ⟨d, hd, held, size⟩ := h.insertBefore_none xs
      simp only [Code.edit, hd]
      exact ⟨_, .insertAtEnd xs, held, size⟩
    · obtain ⟨a, y, b, rfl⟩ := h.split_of_isLive hlive
      obtain ⟨d, hd, held, size⟩ := h.insertBefore xs
      simp only [Code.edit, hd]
      exact ⟨_, .insertBefore rfl xs, held, size⟩
  | insertAfter id xs =>
    obtain ⟨a, y, b, rfl⟩ := h.split_of_isLive legal
    obtain ⟨d, hd, held, size⟩ := h.insertAfter xs
    simp only [Code.edit, hd]
    exact ⟨_, .insertAfter rfl xs, held, size⟩
  | remove id =>
    by_cases hmem : id ∈ ls.map Prod.fst
    · obtain ⟨a, y, b, rfl⟩ := h.split_of_isLive ((h.isLive_iff id).mpr hmem)
      cases hy : y.isLabel with
      | true =>
        have hline : (id, y) ∈ a ++ (id, y) :: b := by simp
        simp only [Code.edit, h.remove_label hline hy]
        exact ⟨_, .removeLabel hline hy, h, rfl⟩
      | false =>
        obtain ⟨d, hd, held, size⟩ := h.remove hy
        simp only [Code.edit, hd]
        exact ⟨_, .remove rfl hy, held, size⟩
    · simp only [Code.edit, h.remove_dead hmem]
      exact ⟨_, .removeDead hmem, h, rfl⟩
  | set id x =>
    obtain ⟨a, y, b, rfl⟩ := h.split_of_isLive legal
    obtain ⟨d, hd, held, size⟩ := h.set x
    simp only [Code.edit, hd]
    exact ⟨_, .set rfl x, held, size⟩

/-! ## What a code shows -/

/-- Going from `id` from one instruction to another, until there is none, visits the given ids. -/
inductive Chain (step : InsnId → Except Fault InsnId) : InsnId → List InsnId → Prop
  | stop : Chain step .none []
  | move {id next : InsnId} {ids : List InsnId} (hid : id ≠ .none) (h : step id = .ok next)
      (rest : Chain step next ids) : Chain step id (id :: ids)

/-- All that can be asked of a code is answered as the sequence says. -/
structure Shows (c : Code) (s : Sequence) : Prop where
  listing : c.listing = s.lines
  ids : c.ids = s.lines.map Prod.fst
  forward : Chain c.next c.first c.ids
  backward : Chain c.prev c.last c.ids.reverse
  nodup : c.ids.Nodup
  get : ∀ p ∈ s.lines, c.get p.1 = .ok p.2
  live : ∀ id, c.isLive id = true ↔ id ∈ c.ids
  size : c.size = c.ids.length
  capacity : c.capacity = s.issued
  issued : ∀ id ∈ c.ids, (0 : Int) ≤ id ∧ (id : Int) < s.issued
  index : ∀ k p : Nat, c.index[k]? = some (p : Int) ↔ c.ids[p]? = some (k : Int)
  indexDead : ∀ k < s.issued, (k : Int) ∉ c.ids → c.index[k]? = some (-1)
  indexSize : c.index.size = s.issued

/-- No node has the id that stands for none. -/
theorem ne_none_of_node? {n : Node} (h : c.node? id = some n) : id ≠ .none := by
  rintro rfl
  cases h

/-- Forwards, the links go through the sequence. -/
theorem Linked.chain_next {start : InsnId} (h : Linked c start ls .none) :
    Chain c.next (headId ls .none) (ls.map Prod.fst) := by
  induction ls generalizing start with
  | nil => exact .stop
  | cons p ls ih =>
    obtain ⟨id, x⟩ := p
    obtain ⟨hnode, hrest⟩ := h
    exact .move (ne_none_of_node? hnode) (by simp [next, hnode]) (ih hrest)

/-- Backwards, they go through it in reverse. -/
theorem Linked.chain_prev {stop : InsnId} (h : Linked c .none ls stop) :
    Chain c.prev (lastId .none ls) (ls.map Prod.fst).reverse := by
  induction ls using List.reverseRecOn generalizing stop with
  | nil => exact .stop
  | append_singleton ls p ih =>
    obtain ⟨id, x⟩ := p
    obtain ⟨hfront, hnode, -⟩ := linked_append.mp h
    rw [lastId_concat, List.map_append, List.reverse_append]
    exact .move (ne_none_of_node? hnode) (by simp [prev, hnode]) (ih hfront)

/-- Every question is answered as for the sequence. -/
theorem Represents.shows (h : c.Represents s) : c.Shows s := by
  obtain ⟨h, hissued⟩ := h
  have hids := h.ids_eq
  constructor
  case listing => exact h.listing_eq
  case ids => exact hids
  case forward =>
    rw [h.first, hids]
    exact h.linked.chain_next
  case backward =>
    rw [h.last, hids]
    exact h.linked.chain_prev
  case nodup =>
    rw [hids]
    exact h.nodup
  case get =>
    intro p hp
    rw [Code.get, h.get?_eq hp]
  case live =>
    rw [hids]
    exact h.isLive_iff
  case size => rw [Code.size, h.live, hids, List.length_map]
  case capacity => exact hissued
  case issued =>
    rw [hids, ← hissued]
    exact fun id hid => h.id_lt hid
  case index =>
    rw [hids]
    exact h.index_eq_some_iff
  case indexDead =>
    rw [hids, ← hissued]
    exact fun k hk hdead => h.index_eq_neg_one hk hdead
  case indexSize => rw [c.size_index, hissued]

/-- The code of a list of instructions represents them, numbered from zero on. -/
theorem represents_ofList (xs : List Insn) : (ofList xs).Represents ⟨numbered 0 xs, xs.length⟩ := by
  obtain ⟨d, hd, held, size⟩ := holds_empty.appendAll xs
  rw [ofList, hd]
  exact ⟨held, by simpa [empty] using size⟩

end Code

/-! ## Sessions -/

/-- Changing both sides of a pairing at one position keeps it a pairing. -/
theorem forall₂_set {α β : Type} {R : α → β → Prop} {l : List α} {l' : List β} (h : List.Forall₂ R l l') (k : Nat)
    {a : α} {b : β} (hab : R a b) : List.Forall₂ R (l.set k a) (l'.set k b) := by
  induction h generalizing k with
  | nil => exact .nil
  | cons hhead htail ih =>
    cases k with
    | zero => exact .cons hab htail
    | succ k => exact .cons hhead (ih k)

namespace CodeTable

open Code

/-- The code that an action names is there, and an edit gives positions that are in it. -/
def Action.Legal (t : CodeTable) : Action → Prop
  | .make _ => True
  | .edit k e => ∃ c, t.codes[k]? = some c ∧ e.Legal c
  | .clone k => ∃ c, t.codes[k]? = some c

/-- A legal action on codes, with its answer. -/
def Acts (t : CodeTable) (a : Action) (u : CodeTable) (r : Reply) : Prop := a.Legal t ∧ t.run a = (u, r)

/-- The same with sequences: an action makes one more sequence, changes one of them, or repeats one. -/
inductive SequenceActs : List Sequence → Action → List Sequence → Reply → Prop
  | make (ss : List Sequence) (xs : List Insn) :
      SequenceActs ss (.make xs) (ss ++ [⟨numbered 0 xs, xs.length⟩]) .done
  | edit {ss : List Sequence} {k : Nat} {s s' : Sequence} {e : Edit} {r : Reply} (hs : ss[k]? = some s)
      (h : s.Edits e s' r) : SequenceActs ss (.edit k e) (ss.set k s') r
  | clone {ss : List Sequence} {k : Nat} {s : Sequence} (hs : ss[k]? = some s) :
      SequenceActs ss (.clone k) (ss ++ [s]) .done

/-- Actions one after the other, with their answers. -/
inductive Session {σ : Type} (step : σ → Action → σ → Reply → Prop) : σ → List (Action × Reply) → σ → Prop
  | nil (s : σ) : Session step s [] s
  | cons {s s' s'' : σ} {a : Action} {r : Reply} {rest : List (Action × Reply)} (h : step s a s' r)
      (hrest : Session step s' rest s'') : Session step s ((a, r) :: rest) s''

/-- The codes are out of each other's way, and represent the given sequences. -/
structure Represents (t : CodeTable) (ss : List Sequence) : Prop where
  separate : t.Separate
  codes : List.Forall₂ Code.Represents t.codes ss

variable {t u : CodeTable} {ss : List Sequence}

/-- Without codes there are no sequences. -/
theorem represents_empty : empty.Represents [] := ⟨separate_empty, .nil⟩

/-- One more code beside the others represents one more sequence. -/
theorem Represents.add (h : t.Represents ss) {c : Code} {s : Sequence} (hc : c.Represents s) :
    (t.add c).Represents (ss ++ [s]) := by
  refine ⟨h.separate.add c, ?_⟩
  rw [h.separate.codes_add]
  exact List.rel_append h.codes (.cons hc .nil)

/-- A code of the table is read through its handle. -/
theorem handle_of_codes {k : Nat} {c : Code} (hc : t.codes[k]? = some c) :
    ∃ g, t.handles[k]? = some g ∧ t.load g = c := by
  rw [CodeTable.codes, List.getElem?_map] at hc
  exact Option.map_eq_some_iff.mp hc

/-- An action on codes is an action on the sequences that they represent. -/
theorem Represents.acts (h : t.Represents ss) {a : Action} {r : Reply} (hact : t.Acts a u r) :
    ∃ ss', SequenceActs ss a ss' r ∧ u.Represents ss' := by
  obtain ⟨legal, hrun⟩ := hact
  cases a with
  | make xs =>
    obtain ⟨rfl, rfl⟩ := Prod.mk.inj hrun
    exact ⟨_, .make ss xs, h.add (represents_ofList xs)⟩
  | edit k e =>
    obtain ⟨c, hc, legal⟩ := legal
    obtain ⟨g, hg, rfl⟩ := handle_of_codes hc
    obtain ⟨s, hs, hrep⟩ := forall₂_getElem? h.codes hc
    obtain ⟨s', hedit, hrep'⟩ := hrep.edit legal
    simp only [run, hg] at hrun
    obtain ⟨rfl, rfl⟩ := Prod.mk.inj hrun
    refine ⟨_, .edit hs hedit, h.separate.update hg _, ?_⟩
    rw [h.separate.codes_update hg]
    exact forall₂_set h.codes k hrep'
  | clone k =>
    obtain ⟨c, hc⟩ := legal
    obtain ⟨g, hg, rfl⟩ := handle_of_codes hc
    obtain ⟨s, hs, hrep⟩ := forall₂_getElem? h.codes hc
    simp only [run, hg, clone_eq] at hrun
    obtain ⟨rfl, rfl⟩ := Prod.mk.inj hrun
    exact ⟨_, .clone hs, h.add hrep⟩

/-- A session on codes is a session on the sequences that they represent. -/
theorem Represents.session (h : t.Represents ss) {tr : List (Action × Reply)} (hs : Session Acts t tr u) :
    ∃ ss', Session SequenceActs ss tr ss' ∧ u.Represents ss' := by
  induction hs generalizing ss with
  | nil => exact ⟨ss, .nil ss, h⟩
  | cons hstep _ ih =>
    obtain ⟨ss₁, hact, h₁⟩ := h.acts hstep
    obtain ⟨ss₂, hrest, h₂⟩ := ih h₁
    exact ⟨ss₂, .cons hact hrest, h₂⟩

/-- Whatever is done, with legal positions, to codes that are made of instructions and to their copies is done alike
to plain sequences, with the same answers, and every code then shows its sequence. -/
theorem session_refines {tr : List (Action × Reply)} (h : Session Acts .empty tr t) :
    ∃ ss, Session SequenceActs [] tr ss ∧ List.Forall₂ Shows t.codes ss := by
  obtain ⟨ss, hsession, hrep⟩ := represents_empty.session h
  exact ⟨ss, hsession, hrep.codes.imp fun _ _ => Code.Represents.shows⟩

/-- A code of one instruction is copied. The copy is emptied and filled again, a label and a removed instruction are
refused, and then the first code grows too. -/
def emptiedCopy : List (Action × Reply) :=
  [(.make [.plain .pop], .done),
   (.clone 0, .done),
   (.edit 1 (.remove 0), .done),
   (.edit 1 (.insertBefore .none [.label, .plain .dup]), .ids [1, 2]),
   (.edit 1 (.remove 1), .refused (.label 1)),
   (.edit 1 (.remove 0), .refused (.dead 0)),
   (.edit 1 (.insertAfter 1 [.plain .swap]), .ids [3]),
   (.edit 0 (.append (.plain .nop)), .ids [1])]

/-- Neither of the two codes sees what is done to the other one. -/
theorem session_refines_emptiedCopy :
    ∃ t, Session Acts .empty emptiedCopy t ∧
      t.codes.map listing = [[(0, .plain .pop), (1, .plain .nop)], [(1, .label), (3, .plain .swap), (2, .plain .dup)]] ∧
      t.codes.map Code.size = [2, 3] ∧
      ∃ ss, Session SequenceActs [] emptiedCopy ss ∧ List.Forall₂ Shows t.codes ss := by
  have hsession : Session Acts .empty emptiedCopy _ :=
    .cons ⟨trivial, rfl⟩ <| .cons ⟨⟨_, rfl⟩, rfl⟩ <| .cons ⟨⟨_, rfl, trivial⟩, rfl⟩ <|
      .cons ⟨⟨_, rfl, .inl rfl⟩, rfl⟩ <| .cons ⟨⟨_, rfl, trivial⟩, rfl⟩ <| .cons ⟨⟨_, rfl, trivial⟩, rfl⟩ <|
      .cons ⟨⟨_, rfl, rfl⟩, rfl⟩ <| .cons ⟨⟨_, rfl, trivial⟩, rfl⟩ <| .nil _
  exact ⟨_, hsession, by decide, by decide, session_refines hsession⟩

end CodeTable

end CoordSplit
