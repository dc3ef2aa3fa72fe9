import CoordSplit.Proofs.AssemblyItems

/-!
# Printed assembly text is read back

The text of a class that was read from a text is read as the same class (`parse_classText`). The lines of a method body
are read as its items; their labels stand where the ids of the method say (`BodyOf.labelIds_eq`), so that resolving them
gives back the method (`OpenMethod.finish_eq`). Each method of the text adds itself to the class (`readLines_method`).
-/

set_option autoImplicit false

namespace CoordSplit.Assembly

/-! ## Labels -/

/-- The label that an item defines. -/
def Item.label? : Item → Option Text
  | .label name => some name
  | _ => none

theorem ofNat_injective {a b : Nat} (h : Text.ofNat a = Text.ofNat b) : a = b := by
  rw [← Decimal.ofDigits_digitsOf a, ← Decimal.ofDigits_digitsOf b, Decimal.digitsOf, Decimal.digitsOf, h]

/-- Different labels have different names. -/
theorem labelText_injective {c : Code} {p q : InsnId} (hp : p ∈ c.labels) (h : c.labelText p = c.labelText q) :
    p = q := by
  have hidx := ofNat_injective (List.cons.inj h).2
  exact (List.idxOf_inj hp).mp hidx

/-- A label is found under its text. -/
theorem lookup_labels {c : Code} {ids : List InsnId} (hids : ∀ id ∈ ids, id ∈ c.labels) {q : InsnId} (hq : q ∈ ids) :
    (ids.map fun id => (c.labelText id, id)).lookup (c.labelText q) = some q := by
  induction ids with
  | nil => simp at hq
  | cons id ids ih =>
    rw [List.map_cons, List.lookup_cons]
    by_cases heq : q = id
    · simp [heq]
    · have hname : (c.labelText q == c.labelText id) = false := by
        rw [beq_eq_false_iff_ne]
        exact fun h => heq (labelText_injective (hids id (by simp)) h.symm).symm
      rw [hname]
      exact ih (fun r hr => hids r (by simp [hr])) (List.mem_of_ne_of_mem heq hq)

theorem label?_itemOf (name : InsnId → Text) (p : InsnId × Insn) :
    (itemOf name p).label? = if p.2.isLabel then some (name p.1) else none := by
  obtain ⟨id, x⟩ := p
  cases x <;> rfl

theorem isCode_itemOf (name : InsnId → Text) (p : InsnId × Insn) : OpenMethod.isCode (itemOf name p) = true := by
  obtain ⟨id, x⟩ := p
  cases x <;> rfl

/-- The labels of the items of a code. -/
theorem filterMap_itemOf (c : Code) (ls : List (InsnId × Insn)) :
    (ls.map (itemOf c.labelText)).filterMap Item.label? =
      ((ls.filter fun p => p.2.isLabel).map Prod.fst).map c.labelText := by
  induction ls with
  | nil => rfl
  | cons p ls ih =>
    rw [List.map_cons, List.filterMap_cons, label?_itemOf, List.filter_cons, ih]
    by_cases h : p.2.isLabel = true
    · simp [h]
    · simp [h]

/-- The names of the labels that a body defines are those of the labels of the code. -/
theorem filterMap_bodyItems (m : Method) :
    (bodyItems m).filterMap Item.label? = m.code.labels.map m.code.labelText := by
  have hlimits : (if m.maxStack = 0 ∧ m.maxLocals = 0 then [] else [Item.limits m.maxStack m.maxLocals]).filterMap
      Item.label? = [] := by
    split <;> rfl
  have hlocals : (m.locals.map (variableOf m.code)).filterMap Item.label? = [] := by
    rw [List.filterMap_map]
    exact List.filterMap_eq_nil_iff.mpr fun v _ => rfl
  have hhandlers : (m.handlers.map (handlerOf m.code)).filterMap Item.label? = [] := by
    rw [List.filterMap_map]
    exact List.filterMap_eq_nil_iff.mpr fun h _ => rfl
  unfold bodyItems
  rw [List.filterMap_append, List.filterMap_append, List.filterMap_append, hlimits, hlocals, hhandlers, filterMap_itemOf,
    List.nil_append, List.append_nil, List.append_nil]
  rfl

namespace OpenMethod

theorem labelIds_step (n : Nat) (l : Nat × Item) (rest : List (Nat × Item)) :
    labelIds n (l :: rest) = match l.2.label? with
      | some name => (name, (n : Int)) :: labelIds (n + 1) rest
      | none => labelIds (if isCode l.2 then n + 1 else n) rest := by
  obtain ⟨line, item⟩ := l
  cases item <;> rfl

variable {body : List (Nat × Item)}

/-- Lines that are no code define no label and take no id. -/
theorem labelIds_of_not_isCode (h : ∀ l ∈ body, isCode l.2 = false) (n : Nat)
    (rest : List (Nat × Item)) : labelIds n (body ++ rest) = labelIds n rest := by
  induction body with
  | nil => rfl
  | cons l body ih =>
    obtain ⟨line, item⟩ := l
    have hitem := h _ (List.mem_cons_self ..)
    have hrest := ih fun l hl => h l (by simp [hl])
    cases item <;> first | exact hrest | cases hitem

/-- The labels of numbered code have the numbers of their lines. -/
theorem labelIds_numbered (c : Code) (n : Nat) (xs : List Insn)
    (h : body.map Prod.snd = (Code.numbered n xs).map (itemOf c.labelText)) {rest : List (Nat × Item)}
    (hrest : ∀ l ∈ rest, isCode l.2 = false) :
    labelIds n (body ++ rest) =
      (((Code.numbered n xs).filter fun p => p.2.isLabel).map Prod.fst).map fun id => (c.labelText id, id) := by
  induction xs generalizing n body with
  | nil =>
    obtain rfl : body = [] := by simpa using h
    have hend := labelIds_of_not_isCode hrest n []
    rw [List.append_nil] at hend
    rw [List.nil_append, hend]
    rfl
  | cons x xs ih =>
    rw [Code.numbered_cons] at h ⊢
    cases body with
    | nil => simp at h
    | cons l body =>
      obtain ⟨hitem, hbody⟩ := List.cons.inj h
      rw [List.cons_append, labelIds_step, hitem, label?_itemOf, isCode_itemOf, List.filter_cons, if_pos rfl, ih _ hbody]
      by_cases hlabel : x.isLabel = true
      · simp [hlabel]
      · simp [hlabel]

/-! ## Resolved lines -/

variable {labels : List (Text × InsnId)}

theorem resolve_eq {name : Text} {q : InsnId} (h : labels.lookup name = some q) (line : Nat) :
    resolve labels line name = .ok q := by
  unfold resolve
  rw [h]

/-- The line of an instruction is resolved to the instruction. -/
theorem resolveLine_itemOf {name : InsnId → Text} {p : InsnId × Insn}
    (h : ∀ q ∈ p.2.targets, labels.lookup (name q) = some q) (line : Nat) (r : Resolved) :
    resolveLine labels (line, itemOf name p) r = .ok { r with code := p.2 :: r.code } := by
  obtain ⟨id, x⟩ := p
  cases x with
  | jump op target =>
    unfold resolveLine
    dsimp only [itemOf]
    rw [resolve_eq (h target (by simp [Insn.targets]))]
    rfl
  | switch op keys otherwise targets =>
    have hmap : (targets.map name).mapM (resolve labels line) = .ok targets := by
      rw [mapM_ok_iff, List.forall₂_map_left_iff, List.forall₂_same]
      exact fun q hq => resolve_eq (h q (by simp [Insn.targets, hq])) line
    unfold resolveLine
    dsimp only [itemOf]
    rw [resolve_eq (h otherwise (by simp [Insn.targets])), hmap]
    rfl
  | _ => rfl

theorem resolveLine_variableOf {c : Code} {v : LocalVar} (hstart : labels.lookup (c.labelText v.start) = some v.start)
    (hstop : labels.lookup (c.labelText v.stop) = some v.stop) (line : Nat) (r : Resolved) :
    resolveLine labels (line, variableOf c v) r = .ok { r with locals := v :: r.locals } := by
  unfold resolveLine
  dsimp only [variableOf]
  rw [resolve_eq hstart, resolve_eq hstop]
  rfl

theorem resolveLine_handlerOf {c : Code} {h : Handler} (hstart : labels.lookup (c.labelText h.start) = some h.start)
    (hstop : labels.lookup (c.labelText h.stop) = some h.stop)
    (hhandler : labels.lookup (c.labelText h.handler) = some h.handler) (line : Nat) (r : Resolved) :
    resolveLine labels (line, handlerOf c h) r = .ok { r with handlers := h :: r.handlers } := by
  unfold resolveLine
  dsimp only [handlerOf]
  rw [resolve_eq hstart, resolve_eq hstop, resolve_eq hhandler]
  rfl

/-- Lines that each put something at the front of one list of what is resolved are resolved together. -/
theorem resolveBody_map {α β : Type} {f : α → Item} (g : α → β) (get : Resolved → List β)
    (set : Resolved → List β → Resolved) (hself : ∀ r, set r (get r) = r) (hget : ∀ r l, get (set r l) = l)
    (hset : ∀ r k l, set (set r k) l = set r l) {xs : List α}
    (h : ∀ x ∈ xs, ∀ line r, resolveLine labels (line, f x) r = .ok (set r (g x :: get r)))
    (hbody : body.map Prod.snd = xs.map f) (rest : List (Nat × Item)) (r : Resolved) :
    resolveBody labels (body ++ rest) r = resolveBody labels rest (set r ((xs.map g).reverse ++ get r)) := by
  induction xs generalizing body r with
  | nil =>
    obtain rfl : body = [] := by simpa using hbody
    simp [hself]
  | cons x xs ih =>
    cases body with
    | nil => simp at hbody
    | cons l body =>
      obtain ⟨line, item⟩ := l
      obtain ⟨hitem, htail⟩ := List.cons.inj hbody
      obtain rfl : item = f x := hitem
      have hrest := ih (fun y hy => h y (by simp [hy])) htail (set r (g x :: get r))
      rw [hget, hset] at hrest
      rw [List.cons_append, resolveBody_cons, h x (by simp), List.map_cons, List.reverse_cons, List.append_assoc,
        List.singleton_append]
      exact hrest

/-- Lines with the items of a method, by what they are for. -/
structure BodyOf (m : Method) (limits code locals handlers : List (Nat × Item)) : Prop where
  limits : limits.map Prod.snd = if m.maxStack = 0 ∧ m.maxLocals = 0 then [] else [.limits m.maxStack m.maxLocals]
  code : code.map Prod.snd = m.code.listing.map (itemOf m.code.labelText)
  locals : locals.map Prod.snd = m.locals.map (variableOf m.code)
  handlers : handlers.map Prod.snd = m.handlers.map (handlerOf m.code)

theorem exists_bodyOf {m : Method} (h : body.map Prod.snd = bodyItems m) :
    ∃ limits code locals handlers,
      body = limits ++ (code ++ (locals ++ handlers)) ∧ BodyOf m limits code locals handlers := by
  unfold bodyItems at h
  obtain ⟨lines, handlers, rfl, h, hhandlers⟩ := List.map_eq_append_iff.mp h
  obtain ⟨lines, locals, rfl, h, hvars⟩ := List.map_eq_append_iff.mp h
  obtain ⟨limits, code, rfl, hlimits, hcode⟩ := List.map_eq_append_iff.mp h
  exact ⟨limits, code, locals, handlers, by simp, hlimits, hcode, hvars, hhandlers⟩

namespace BodyOf

variable {m : Method} {limits code locals handlers : List (Nat × Item)}

variable (h : BodyOf m limits code locals handlers)

include h

/-- Limits and tables are no code. -/
theorem not_isCode :
    (∀ l ∈ limits, isCode l.2 = false) ∧ ∀ l ∈ locals ++ handlers, isCode l.2 = false := by
  constructor
  · intro l hl
    have hmem := List.mem_map_of_mem (f := Prod.snd) hl
    rw [h.limits] at hmem
    split at hmem
    · simp at hmem
    · rw [List.mem_singleton.mp hmem]
      rfl
  · intro l hl
    have hmem := List.mem_map_of_mem (f := Prod.snd) hl
    rw [List.map_append, h.locals, h.handlers, List.mem_append, List.mem_map, List.mem_map] at hmem
    rcases hmem with ⟨v, -, heq⟩ | ⟨x, -, heq⟩
    · rw [← heq]
      rfl
    · rw [← heq]
      rfl

/-- The labels of the lines of a method are those of its code. -/
theorem labelIds_eq (hm : m.Ordered) :
    labelIds 0 (limits ++ (code ++ (locals ++ handlers))) = m.code.labels.map fun id => (m.code.labelText id, id) := by
  obtain ⟨xs, hxs⟩ := hm
  obtain ⟨hlimits, htables⟩ := h.not_isCode
  have hlisting : m.code.listing = Code.numbered 0 xs := by
    rw [hxs]
    exact (Code.holds_ofList xs).listing_eq
  have hcode := h.code
  rw [hlisting] at hcode
  rw [labelIds_of_not_isCode hlimits, labelIds_numbered m.code 0 xs hcode htables, Code.labels, hlisting]

theorem resolveBody_limits (rest : List (Nat × Item)) :
    resolveBody labels (limits ++ rest) ⟨[], [], [], (0, 0)⟩ =
      resolveBody labels rest ⟨[], [], [], (m.maxStack, m.maxLocals)⟩ := by
  have hlimits := h.limits
  split at hlimits
  · next hzero =>
    obtain rfl : limits = [] := by simpa using hlimits
    rw [hzero.1, hzero.2]
    rfl
  · obtain ⟨⟨line, item⟩, rfl, hitem⟩ := List.map_eq_singleton_iff.mp hlimits
    obtain rfl : item = _ := hitem
    rfl

/-- The lines of a method are resolved to its parts. -/
theorem resolveBody_eq (hm : m.Anchored) (hlookup : ∀ q ∈ m.code.labels, labels.lookup (m.code.labelText q) = some q) :
    resolveBody labels (limits ++ (code ++ (locals ++ handlers))) ⟨[], [], [], (0, 0)⟩ =
      .ok ⟨(m.code.listing.map Prod.snd).reverse, m.locals.reverse, m.handlers.reverse, (m.maxStack, m.maxLocals)⟩ := by
  obtain ⟨htargets, hlocals, hhandlers⟩ := Method.anchored_iff.mp hm
  have hcode := resolveBody_map Prod.snd Resolved.code (fun r l => { r with code := l }) (fun _ => rfl)
    (fun _ _ => rfl) (fun _ _ _ => rfl)
    (fun p hp => resolveLine_itemOf fun q hq => hlookup q (htargets p hp q hq)) h.code
  have hvars := resolveBody_map id Resolved.locals (fun r l => { r with locals := l }) (fun _ => rfl)
    (fun _ _ => rfl) (fun _ _ _ => rfl)
    (fun v hv => resolveLine_variableOf (hlookup _ (hlocals v hv).1) (hlookup _ (hlocals v hv).2)) h.locals
  have hhandlers := resolveBody_map id Resolved.handlers (fun r l => { r with handlers := l }) (fun _ => rfl)
    (fun _ _ => rfl) (fun _ _ _ => rfl)
    (fun x hx => resolveLine_handlerOf (hlookup _ (hhandlers x hx).1) (hlookup _ (hhandlers x hx).2.1)
      (hlookup _ (hhandlers x hx).2.2)) h.handlers []
  rw [List.append_nil] at hhandlers
  rw [h.resolveBody_limits, hcode, hvars, hhandlers]
  simp [resolveBody]

end BodyOf

/-- A method whose lines have the items of a spelled method is finished as it. -/
theorem finish_eq {m : Method} (hm : m.Spelled)
    (hbody : body.reverse.map Prod.snd = bodyItems m) : finish ⟨m.name, m.desc, m.access, body⟩ = .ok m := by
  obtain ⟨limits, code, locals, handlers, heq, hparts⟩ := exists_bodyOf hbody
  have hlookup : ∀ q ∈ m.code.labels,
      (labelIds 0 (limits ++ (code ++ (locals ++ handlers)))).lookup (m.code.labelText q) = some q := by
    intro q hq
    rw [hparts.labelIds_eq hm.ordered]
    exact lookup_labels (fun id hid => hid) hq
  have hcode : Code.ofList (m.code.listing.map Prod.snd) = m.code := by
    obtain ⟨xs, hxs⟩ := hm.ordered
    rw [hxs, (Code.holds_ofList xs).listing_eq, Code.map_snd_numbered]
  unfold finish
  dsimp only
  rw [heq, hparts.resolveBody_eq hm.anchored hlookup]
  change Except.ok _ = Except.ok m
  simp [hcode]

/-- A label is defined if a line defines it. -/
theorem defines_eq_false {om : OpenMethod} {name : Text} (h : name ∉ (om.body.map Prod.snd).filterMap Item.label?) :
    om.defines name = false := by
  unfold defines
  rw [List.any_eq_false]
  rintro ⟨line, item⟩ hl
  cases item with
  | label n =>
    have hne : n ≠ name := by
      rintro rfl
      exact h (List.mem_filterMap.mpr ⟨.label n, List.mem_map_of_mem (f := Prod.snd) hl, rfl⟩)
    simpa using hne
  | _ => simp

end OpenMethod

/-! ## Lines -/

/-- The words of a line, as they are read. -/
def PrintedLine.words (l : PrintedLine) : Option (List Text) := some (l.word :: l.args)

variable {c : ClassModel} {s : ParseState} {om : OpenMethod} {m : Method}

/-- A line of a method body adds its item to the open method. -/
theorem readLine_item (hc : s.classModel = some c)
    (hm : s.method = some om) {l : PrintedLine} {item : Item} (h : ReadsAs l item)
    (hfresh : ∀ name, item = .label name → om.defines name = false) :
    readLine s (l.word :: l.args) = .ok { s with method := some { om with body := (s.line, item) :: om.body } } := by
  obtain ⟨hclass, hmethod, hend⟩ := h.inside
  unfold readLine
  dsimp only
  rw [if_neg hclass, hc]
  dsimp only
  rw [if_neg hmethod, hm]
  dsimp only
  rw [if_neg hend, h.item]
  cases item with
  | label name =>
    dsimp only
    rw [if_neg (by simp [hfresh name rfl])]
  | _ => rfl

theorem readLines_cons {next : ParseState} {words : List Text}
    (h : readLine { s with line := s.line + 1 } words = .ok next) (rest : List (Option (List Text))) :
    readLines s (some words :: rest) = readLines next rest := by
  rw [readLines, h]

/-- The lines of a body add their items to the open method, if no label is defined twice. -/
theorem readLines_items {ls : List PrintedLine} {items : List Item} (h : List.Forall₂ ReadsAs ls items)
    (hc : s.classModel = some c) (hm : s.method = some om)
    (hnodup : ((om.body.reverse.map Prod.snd ++ items).filterMap Item.label?).Nodup) (rest : List (Option (List Text))) :
    ∃ line body, body.reverse.map Prod.snd = om.body.reverse.map Prod.snd ++ items ∧
      readLines s (ls.map PrintedLine.words ++ rest) = readLines ⟨line, some c, some { om with body := body }⟩ rest := by
  induction h generalizing s om with
  | nil =>
    refine ⟨s.line, om.body, by simp, ?_⟩
    obtain ⟨line, classModel, method⟩ := s
    obtain rfl : classModel = some c := hc
    obtain rfl : method = some om := hm
    rfl
  | @cons l item ls items hl hls ih =>
    have hfresh : ∀ name, item = .label name → om.defines name = false := by
      rintro name rfl
      apply OpenMethod.defines_eq_false
      rw [List.filterMap_append, List.filterMap_cons] at hnodup
      intro hmem
      have hmem : name ∈ (om.body.reverse.map Prod.snd).filterMap Item.label? := by simpa using hmem
      exact (List.nodup_append.mp hnodup).2.2 name hmem name (by simp [Item.label?]) rfl
    have hread : readLine { s with line := s.line + 1 } (l.word :: l.args) = .ok { s with
        line := s.line + 1, method := some { om with body := (s.line + 1, item) :: om.body } } :=
      readLine_item (s := { s with line := s.line + 1 }) hc hm hl hfresh
    obtain ⟨line, body, hbody, heq⟩ := @ih { s with
      line := s.line + 1, method := some { om with body := (s.line + 1, item) :: om.body } }
      { om with body := (s.line + 1, item) :: om.body } hc rfl (by simpa using hnodup)
    refine ⟨line, body, by simpa using hbody, ?_⟩
    rw [List.map_cons, List.cons_append, PrintedLine.words, readLines_cons hread, heq]

/-- The line that opens a method is read as the method with an empty body. -/
theorem methodLine_eq (h : m.Spelled) :
    methodLine (m.access.names ++ [m.name, m.desc]) = .ok ⟨m.name, m.desc, m.access, []⟩ := by
  obtain ⟨t, ht⟩ := h.type
  have haccess := accessFlags_ok_iff.mpr (Access.ofNames?_names h.access)
  have hargs : (m.access.names ++ [m.name, m.desc]).reverse = m.desc :: m.name :: m.access.names.reverse := by simp
  unfold methodLine
  rw [hargs]
  dsimp only
  rw [ht]
  dsimp only
  rw [List.reverse_reverse, haccess]
  rfl

theorem readLine_method (h : m.Spelled) (line : Nat) (c : ClassModel) :
    readLine ⟨line, some c, none⟩ ("method" :: (m.access.names ++ [m.name, m.desc])) =
      .ok ⟨line, some c, some ⟨m.name, m.desc, m.access, []⟩⟩ := by
  unfold readLine
  dsimp only
  rw [if_neg (by decide), if_pos rfl, if_neg (by simp), methodLine_eq h]

theorem readLine_end (h : om.finish = .ok m) (line : Nat) (c : ClassModel) :
    readLine ⟨line, some c, some om⟩ ["end"] = .ok ⟨line, some { c with methods := m :: c.methods }, none⟩ := by
  unfold readLine
  dsimp only
  rw [if_neg (by decide), if_neg (by decide), if_pos rfl, h]
  rfl

/-- No label of a spelled method is defined twice. -/
theorem nodup_labels (h : m.Spelled) : ((bodyItems m).filterMap Item.label?).Nodup := by
  rw [filterMap_bodyItems]
  exact h.ordered.wellLinked.labels_nodup.map_on fun p hp q _ heq => labelText_injective hp heq

/-- The lines of a method, with an empty one before them. -/
def methodBlock (m : Method) : List (Option (List Text)) := some [] :: (methodLines m).map PrintedLine.words

/-- The lines of a method add it to the class. -/
theorem readLines_method (h : m.Spelled) (line : Nat) (c : ClassModel) (rest : List (Option (List Text))) :
    ∃ last, readLines ⟨line, some c, none⟩ (methodBlock m ++ rest) =
      readLines ⟨last, some { c with methods := m :: c.methods }, none⟩ rest := by
  obtain ⟨last, body, hbody, hitems⟩ := readLines_items (bodyLines_reads h)
    (s := ⟨line + 1 + 1, some c, some ⟨m.name, m.desc, m.access, []⟩⟩) rfl rfl (by simpa using nodup_labels h)
    (some ["end"] :: rest)
  have hfinish : OpenMethod.finish ⟨m.name, m.desc, m.access, body⟩ = .ok m :=
    OpenMethod.finish_eq h (by simpa using hbody)
  have hwords : methodBlock m ++ rest = some [] :: some (("method" : Text) :: (m.access.names ++ [m.name, m.desc])) ::
      ((bodyLines m).map PrintedLine.words ++ some [("end" : Text)] :: rest) := by
    simp [methodBlock, methodLines, PrintedLine.words]
  refine ⟨last + 1, ?_⟩
  rw [hwords, readLines_cons rfl, readLines_cons (readLine_method h _ c), hitems,
    readLines_cons (readLine_end hfinish _ c)]

/-- The methods of a text are added to the class one after the other. -/
theorem readLines_methods {ms : List Method} (h : ∀ m ∈ ms, m.Spelled) (line : Nat) (c : ClassModel) :
    ∃ last, readLines ⟨line, some c, none⟩ (ms.flatMap methodBlock) =
      .ok ⟨last, some { c with methods := ms.reverse ++ c.methods }, none⟩ := by
  induction ms generalizing line c with
  | nil => exact ⟨line, rfl⟩
  | cons m ms ih =>
    obtain ⟨next, hmethod⟩ := readLines_method (h m (by simp)) line c (ms.flatMap methodBlock)
    obtain ⟨last, hrest⟩ := ih (fun n hn => h n (by simp [hn])) next { c with methods := m :: c.methods }
    refine ⟨last, ?_⟩
    rw [List.flatMap_cons, hmethod, hrest, List.reverse_cons, List.append_assoc, List.singleton_append]

theorem readLine_class (h : c.Spelled) (line : Nat) :
    readLine ⟨line, none, none⟩ ((classLine c).word :: (classLine c).args) =
      .ok ⟨line, some { c with methods := [] }, none⟩ := by
  have hparent : c.parent.isEmpty = false := by simpa using h.parent.ne_nil
  unfold readLine classLine
  dsimp only
  rw [if_pos rfl]
  by_cases hdefault : c.parent = ClassModel.defaultParent
  · simp [hdefault]
  · simp [hdefault, hparent]

/-! ## Texts -/

theorem isWord_of_mem_names {a : Access} {w : Text} (h : w ∈ a.names) : IsWord w := by
  have hall : ∀ p ∈ accessNames, Text.isPlainWord (Text.ofString p.2) = true := by decide
  obtain ⟨p, hp, hw⟩ := List.mem_filterMap.mp h
  obtain ⟨-, hname⟩ := Option.ite_none_right_eq_some.mp hw
  rw [← Option.some.inj hname]
  exact isWord_of_isPlainWord (hall p hp)

theorem legible_classLine (h : c.Spelled) : (classLine c).Legible := by
  intro w hw
  unfold classLine at hw
  dsimp only at hw
  rcases List.mem_cons.mp hw with rfl | hw
  · exact isWord_keyword (by decide)
  · rcases List.mem_cons.mp hw with rfl | hw
    · exact h.name
    · split at hw
      · simp at hw
      · rw [List.mem_singleton.mp hw]
        exact h.parent

/-- All lines of a method can be read. -/
theorem legible_methodLines (h : m.Spelled) : ∀ l ∈ methodLines m, l.Legible := by
  have hfirst : PrintedLine.Legible ⟨false, "method", m.access.names ++ [m.name, m.desc]⟩ := by
    intro w hw
    rcases List.mem_cons.mp hw with hw | hw
    · rw [hw]
      exact isWord_keyword (w := "method") (by decide)
    · rcases List.mem_append.mp hw with hw | hw
      · exact isWord_of_mem_names hw
      · rcases List.mem_pair.mp hw with rfl | rfl
        · exact h.name
        · exact h.desc
  have hlast : PrintedLine.Legible ⟨false, "end", []⟩ := by
    intro w hw
    rw [List.mem_singleton.mp hw]
    exact isWord_keyword (by decide)
  intro l hl
  unfold methodLines at hl
  rw [List.cons_append, List.mem_cons, List.mem_append, List.mem_singleton] at hl
  rcases hl with rfl | hl | rfl
  · exact hfirst
  · obtain ⟨item, -, hitem⟩ := forall₂_mem_left (bodyLines_reads h) hl
    exact hitem.legible
  · exact hlast

/-- Printed lines are read as their words. -/
theorem groupLines_flatMap {ls : List PrintedLine} (h : ∀ l ∈ ls, l.Legible) (rest : Text) :
    groupLines [] (lex .between (ls.flatMap PrintedLine.text ++ rest)) =
      ls.map PrintedLine.words ++ groupLines [] (lex .between rest) := by
  induction ls with
  | nil => rfl
  | cons l ls ih =>
    rw [List.flatMap_cons, List.append_assoc, groupLines_text (h l (by simp)), ih fun k hk => h k (by simp [hk])]
    rfl

theorem groupLines_methods {ms : List Method} (h : ∀ m ∈ ms, m.Spelled) :
    groupLines [] (lex .between (ms.flatMap fun m => 10 :: (methodLines m).flatMap PrintedLine.text)) =
      ms.flatMap methodBlock := by
  induction ms with
  | nil => rfl
  | cons m ms ih =>
    rw [List.flatMap_cons, List.cons_append, groupLines_end, groupLines_flatMap (legible_methodLines (h m (by simp))),
      ih fun n hn => h n (by simp [hn]), List.flatMap_cons]
    rfl

/-- A text that goes on with texts whose last line is ended has its last line ended. -/
theorem getLast?_append_flatMap {α : Type} {f : α → Text} {xs : List α} (h : ∀ x ∈ xs, (f x).getLast? = some 10)
    {t : Text} (ht : t.getLast? = some 10) : (t ++ xs.flatMap f).getLast? = some 10 := by
  induction xs generalizing t with
  | nil => simpa using ht
  | cons x xs ih =>
    have hx : (t ++ f x).getLast? = some 10 := by rw [List.getLast?_append, h x (by simp), Option.some_or]
    rw [List.flatMap_cons, ← List.append_assoc]
    exact ih (fun y hy => h y (by simp [hy])) hx

theorem PrintedLine.getLast?_text (l : PrintedLine) : l.text.getLast? = some 10 := by
  unfold text
  exact List.getLast?_concat

/-- The text of a spelled class has the words of its lines. -/
theorem lines_eq (h : c.Spelled) :
    lines ((classLine c).text ++ c.methods.flatMap fun m => 10 :: (methodLines m).flatMap PrintedLine.text) =
      (classLine c).words :: c.methods.flatMap methodBlock := by
  have hend : ((classLine c).text ++ c.methods.flatMap fun m =>
      10 :: (methodLines m).flatMap PrintedLine.text).getLast? = some 10 := by
    refine getLast?_append_flatMap (fun m _ => ?_) (classLine c).getLast?_text
    exact getLast?_append_flatMap (t := [10]) (fun l _ => l.getLast?_text) rfl
  unfold lines endLastLine
  rw [if_pos (.inr hend), groupLines_text (legible_classLine h), groupLines_methods h.methods]
  rfl

/-- The text of a class that was read from a text is read as the same class. -/
theorem parse_classText {t : Text} {c : ClassModel} (h : parse t = .ok c) :
    ∃ text, classText c = .ok text ∧ parse text = .ok c := by
  have hc := parse_spelled h
  have hprint : ∀ m ∈ c.methods, m.Anchored ∧ ∀ p ∈ m.code.listing, p.2.isPrintable = true := by
    intro m hm
    exact ⟨(hc.methods m hm).anchored, fun p hp => ((hc.methods m hm).insns p hp).isPrintable⟩
  obtain ⟨last, hmethods⟩ := readLines_methods hc.methods 1 { c with methods := [] }
  refine ⟨_, classText_eq hprint, ?_⟩
  unfold parse
  rw [lines_eq hc, PrintedLine.words, readLines_cons (readLine_class hc 1), hmethods]
  change Except.ok _ = _
  simp

/-- A class in words that are not those it is printed with. -/
def variedText : Text :=
  "class C D ; varied\nmethod static public m ([F)V\nstart:\n ldc 1e1f\n pop\n ldc \"a \\x41\\n\"\n pop\n" ++
    " iload 0x1\n lookupswitch out 7:start -0x2:out\nout:\n return\n" ++
    " maxs 4 2\n catch any start out out\n local x I 1 start out\nend"

/-- The words of the text change, its class does not. -/
theorem parse_classText_varied :
    ∃ c text, parse variedText = .ok c ∧ classText c = .ok text ∧ text ≠ variedText ∧ parse text = .ok c := by
  have hchanged : ((parse variedText).toOption.bind fun c => (classText c).toOption.map fun text =>
      decide (text = variedText)) = some false := by decide +kernel
  obtain ⟨c, hc, hchanged⟩ := except_ok_of_bind hchanged
  obtain ⟨text', htext', hne⟩ := except_ok_of_map hchanged
  obtain ⟨text, htext, hread⟩ := parse_classText hc
  obtain rfl := Except.ok.inj (htext.symm.trans htext')
  exact ⟨c, text, hc, htext, of_decide_eq_false hne, hread⟩

end CoordSplit.Assembly
