import CoordSplit.Proofs.AssemblyReading

/-!
# The lines that errors name

A text is read line by line, and an error names the line it is about by the number of lines read so far. A quoted word
may hold line ends, each behind a backslash. Hence one line that is read may take several lines of the text: it has one
line end more than there are in its words (`LineRest`), and the text breaks behind it (`split_lines`).

The lines of the method that is being read are kept with their numbers (`ParseState.Tracks`), since a reference to a
label is resolved when the method ends. If it cannot be, the error is about the line that holds the reference
(`exists_location_reference`). So the number that an error names falls short of the line's own by the line ends within
the words of earlier lines (`parse_error_line`).
-/

set_option autoImplicit false

namespace CoordSplit.Assembly

/-! ## The first line of a text -/

/-- The number of line ends in some words. -/
def innerEnds (words : List Text) : Nat := (words.map (List.count 10)).sum

/-- The number of line ends in the word that a state is in the middle of. -/
def LexState.innerEnds : LexState → Nat
  | .word read | .quoted read | .escape read => read.count 10
  | .between | .comment => 0

/-- The number of the line on which what follows a text starts, if lines are what line ends separate. -/
def lineNumber (before : Text) : Nat := before.count 10 + 1

theorem innerEnds_cons (w : Text) (words : List Text) : innerEnds (w :: words) = w.count 10 + innerEnds words := rfl

theorem innerEnds_append (ws vs : List Text) : innerEnds (ws ++ vs) = innerEnds ws + innerEnds vs := by
  rw [innerEnds, List.map_append, List.sum_append, innerEnds, innerEnds]

theorem innerEnds_flatten_eq_zero_iff {ls : List (List Text)} :
    innerEnds ls.flatten = 0 ↔ ∀ words ∈ ls, ∀ w ∈ words, 10 ∉ w := by
  induction ls with
  | nil => simp [innerEnds]
  | cons words ls ih =>
    rw [List.flatten_cons, innerEnds_append, Nat.add_eq_zero_iff, ih, List.forall_mem_cons, innerEnds]
    simp [List.sum_eq_zero_iff, List.count_eq_zero]

/-- Read from a state on, and with some words read before, the text is the rest of a line and has the words `new`. It
has one line end more than is in its words, and what follows does not change how it is read. -/
structure LineRest (st : LexState) (read : List Text) (first : Text) (new : List Text) : Prop where
  ends : first.getLast? = some 10
  count : first.count 10 + st.innerEnds = innerEnds new + 1
  reads : ∀ v, groupLines read (lex st (first ++ v)) = some (read.reverse ++ new) :: groupLines [] (lex .between v)

namespace LineRest

variable {st st' : LexState} {read new : List Text} {first : Text} {b : UInt8}

theorem getLast?_cons (h : LineRest st read first new) (b : UInt8) : (b :: first).getLast? = some 10 := by
  rw [List.getLast?_cons, h.ends, Option.getD_some]

theorem ne_nil (h : LineRest st read first new) : first ≠ [] := by
  rintro rfl
  cases h.ends

/-- A byte that only leads to another state. -/
theorem cons (h : LineRest st' read first new) (hcount : [b].count 10 + st.innerEnds = st'.innerEnds)
    (hlex : ∀ v, lex st (b :: (first ++ v)) = lex st' (first ++ v)) : LineRest st read (b :: first) new where
  ends := h.getLast?_cons b
  count := by
    have := h.count
    rw [← List.singleton_append, List.count_append]
    omega
  reads v := by rw [List.cons_append, hlex, h.reads]

/-- A byte that ends a word. -/
theorem cons_word {w : Text} (h : LineRest .between (w :: read) first new)
    (hcount : [b].count 10 + st.innerEnds = w.count 10)
    (hlex : ∀ v, lex st (b :: (first ++ v)) = .word w :: lex .between (first ++ v)) :
    LineRest st read (b :: first) (w :: new) where
  ends := h.getLast?_cons b
  count := by
    have hfirst : first.count 10 + 0 = innerEnds new + 1 := h.count
    rw [← List.singleton_append, List.count_append, innerEnds_cons]
    omega
  reads v := by
    rw [List.cons_append, hlex, groupLines, h.reads]
    simp

end LineRest

/-- Read from a state on, and with some words read before, a text begins with the rest of a line. -/
def Begins (st : LexState) (read : List Text) (u : Text) (words : List Text) : Prop :=
  ∃ first rest new, u = first ++ rest ∧ words = read.reverse ++ new ∧ LineRest st read first new

section

variable {st st' : LexState} {read words : List Text} {u : Text} {b : UInt8}

theorem Begins.cons (h : Begins st' read u words) (hcount : [b].count 10 + st.innerEnds = st'.innerEnds)
    (hlex : ∀ v, v.head? = u.head? → lex st (b :: v) = lex st' v) : Begins st read (b :: u) words := by
  obtain ⟨first, rest, new, rfl, hwords, hline⟩ := h
  refine ⟨b :: first, rest, new, rfl, hwords, hline.cons hcount fun v => hlex _ ?_⟩
  rw [List.head?_append_of_ne_nil _ hline.ne_nil, List.head?_append_of_ne_nil _ hline.ne_nil]

theorem Begins.cons_word {w : Text} (h : Begins .between (w :: read) u words)
    (hcount : [b].count 10 + st.innerEnds = w.count 10)
    (hlex : ∀ v, lex st (b :: v) = .word w :: lex .between v) : Begins st read (b :: u) words := by
  obtain ⟨first, rest, new, rfl, hwords, hline⟩ := h
  exact ⟨b :: first, rest, w :: new, rfl, by simpa using hwords, hline.cons_word hcount fun v => hlex _⟩

end

variable {words : List Text} {others : List (Option (List Text))} {t : Text} {done : List (List Text)}
    {s s' : ParseState} {e : SourceError}

/-- What is read first is the rest of a line. -/
theorem begins_of_groupLines {st : LexState} {u : Text} {read : List Text}
    (h : groupLines read (lex st u) = some words :: others) : Begins st read u words := by
  fun_induction lex st u generalizing read words with
  | case1 | case2 | case3 | case4 | case5 => simp [groupLines] at h
  | case6 rest ih =>
    obtain ⟨hwords, -⟩ := List.cons.inj h
    refine ⟨[10], rest, [], rfl, by simpa using hwords.symm, rfl, rfl, fun v => ?_⟩
    simp [lex_lineEnd, groupLines]
  | case7 b rest hend hblank ih =>
    exact (ih h).cons (by simp [LexState.innerEnds, hend]) fun v _ => lex_blank hblank _
  | case8 rest hend hblank ih =>
    refine (ih h).cons rfl fun v _ => ?_
    rw [lex_between, if_neg hend, if_neg hblank, if_pos rfl]
  | case9 b rest hend hblank hcomment hslash ih =>
    refine (ih h).cons (by simp [LexState.innerEnds, hend]) fun v hv => ?_
    rw [lex_between, if_neg hend, if_neg hblank, if_neg hcomment, if_pos (by rwa [hv])]
  | case10 rest hend hblank hcomment hslash ih =>
    refine (ih h).cons rfl fun v _ => ?_
    rw [lex_between, if_neg hend, if_neg hblank, if_neg hcomment, if_neg (by simp), if_pos rfl]
  | case11 b rest hend hblank hcomment hslash hquote ih =>
    refine (ih h).cons (by simp [LexState.innerEnds]) fun v hv => ?_
    rw [lex_between, if_neg hend, if_neg hblank, if_neg hcomment, if_neg (by rwa [hv]), if_neg hquote]
  | case12 w rest ih =>
    obtain ⟨hwords, -⟩ := List.cons.inj h
    refine ⟨[10], rest, [w.reverse], rfl, by simpa using hwords.symm, rfl, ?_, fun v => ?_⟩
    · simp [LexState.innerEnds, innerEnds, add_comm]
    · simp [lex_word, groupLines]
  | case13 w b rest hend hblank ih =>
    refine (ih h).cons_word (by simp [LexState.innerEnds, hend]) fun v => ?_
    rw [lex_word, if_neg hend, if_pos hblank]
  | case14 w b rest hend hblank ih =>
    refine (ih h).cons (by simp [LexState.innerEnds, hend]) fun v _ => ?_
    rw [lex_word, if_neg hend, if_neg hblank]
  | case15 w rest ih =>
    refine (ih h).cons_word (by simp [LexState.innerEnds]) fun v => ?_
    rw [lex_quoted, if_pos rfl]
  | case16 => simp [groupLines] at h
  | case17 w rest hquote hend ih =>
    refine (ih h).cons (by simp [LexState.innerEnds]) fun v _ => ?_
    rw [lex_quoted, if_neg hquote, if_neg hend, if_pos rfl]
  | case18 w b rest hquote hend hescape ih =>
    refine (ih h).cons (by simp [LexState.innerEnds, hend]) fun v _ => ?_
    rw [lex_quoted, if_neg hquote, if_neg hend, if_neg hescape]
  | case19 w b rest ih =>
    exact (ih h).cons (by simp [LexState.innerEnds, List.count_cons, add_comm]) fun v _ => rfl
  | case20 rest ih =>
    obtain ⟨hwords, -⟩ := List.cons.inj h
    exact ⟨[10], rest, [], rfl, by simpa using hwords.symm, rfl, rfl, fun v => by simp [lex, groupLines]⟩
  | case21 b rest hend ih =>
    refine (ih h).cons (by simp [LexState.innerEnds, hend]) fun v _ => ?_
    rw [lex, if_neg hend]

/-! ## Whole lines -/

/-- The text is made of whole lines: what follows it does not change how they are read. -/
def Whole (before : Text) : Prop := ∀ rest, lines (before ++ rest) = lines before ++ lines rest

theorem whole_nil : Whole [] := fun _ => rfl

theorem Whole.append {a b : Text} (ha : Whole a) (hb : Whole b) : Whole (a ++ b) := by
  intro rest
  rw [List.append_assoc, ha, hb, ha, List.append_assoc]

theorem endLastLine_append {first : Text} (h : first.getLast? = some 10) (v : Text) :
    endLastLine (first ++ v) = first ++ endLastLine v := by
  have hne : first ≠ [] := by
    rintro rfl
    cases h
  by_cases hv : v = []
  · simp [hv, endLastLine, h]
  · simp [endLastLine, hne, hv, List.getLast?_append_of_ne_nil _ hv, apply_ite]

theorem isPrefix_of_endLastLine {first rest : Text} (h : endLastLine t = first ++ rest) (hrest : rest ≠ []) :
    first <+: t := by
  rw [endLastLine] at h
  split at h
  · exact ⟨rest, h.symm⟩
  · have hprefix : first <+: t ++ [10] := ⟨rest, h.symm⟩
    rcases List.prefix_concat_iff.mp hprefix with rfl | hprefix
    · exact absurd (by simpa using h) hrest
    · exact hprefix

/-- The first line of a text that has another one. -/
theorem split_first {line : Option (List Text)} (h : lines t = some words :: line :: others) :
    ∃ first rest, t = first ++ rest ∧ Whole first ∧ lines first = [some words] ∧ lines rest = line :: others ∧
      first.count 10 = innerEnds words + 1 := by
  obtain ⟨first, rest, new, hu, rfl, hline⟩ := begins_of_groupLines h
  have hreads : ∀ v, lines (first ++ v) = some words :: lines v := by
    intro v
    rw [lines, endLastLine_append hline.ends, hline.reads]
    rfl
  have hfirst : lines first = [some words] := by simpa [lines, endLastLine, lex, groupLines] using hreads []
  have hwhole : Whole first := fun v => by rw [hreads, hfirst, List.singleton_append]
  have hrest : rest ≠ [] := by
    rintro rfl
    rw [lines, hu, hline.reads] at h
    simp [lex, groupLines] at h
  obtain ⟨tail, rfl⟩ := isPrefix_of_endLastLine hu hrest
  refine ⟨first, tail, rfl, hwhole, hfirst, ?_, hline.count⟩
  rw [hreads] at h
  exact (List.cons.inj h).2

/-- A text breaks behind any of its lines that is not the last. -/
theorem split_lines {line : Option (List Text)} (h : lines t = done.map some ++ line :: others) :
    ∃ before rest, t = before ++ rest ∧ Whole before ∧ lines before = done.map some ∧ lines rest = line :: others ∧
      lineNumber before = done.length + 1 + innerEnds done.flatten := by
  induction done generalizing t with
  | nil => exact ⟨[], t, rfl, whole_nil, rfl, h, rfl⟩
  | cons words done ih =>
    obtain ⟨next, others', hnext⟩ : ∃ next others', done.map some ++ line :: others = next :: others' := by
      cases done with
      | nil => exact ⟨_, _, rfl⟩
      | cons w ws => exact ⟨_, _, rfl⟩
    rw [List.map_cons, List.cons_append, hnext] at h
    obtain ⟨first, rest, rfl, hfirst, hlines, hrest, hcount⟩ := split_first h
    obtain ⟨before, rest, rfl, hbefore, hlines', hrest', hcount'⟩ := ih (hrest.trans hnext.symm)
    refine ⟨first ++ before, rest, by simp, hfirst.append hbefore, ?_, hrest', ?_⟩
    · rw [hfirst, hlines, hlines']
      rfl
    · rw [lineNumber] at hcount' ⊢
      rw [List.count_append, List.length_cons, List.flatten_cons, innerEnds_append]
      omega

/-! ## Reading -/

/-- The labels that a line of a method body refers to. -/
def Item.references : Item → List Text
  | .jump _ target => [target]
  | .switch _ _ otherwise targets => otherwise :: targets
  | .variable _ start stop => [start, stop]
  | .handler _ start stop entry => [start, stop, entry]
  | _ => []

/-- The lines of the method that is being read are among those that have been read, with their numbers. -/
structure ParseState.Tracks (s : ParseState) (done : List (List Text)) : Prop where
  line : s.line = done.length
  body : ∀ m, s.method = some m → ∀ l ∈ m.body, ∃ k word args, l.1 = k + 1 ∧ done[k]? = some (word :: args) ∧
    bodyItem word args = .ok l.2

theorem body_of_methodLine {args : List Text} {m : OpenMethod} (h : methodLine args = .ok m) : m.body = [] := by
  unfold methodLine at h
  split at h
  · next desc name flags _ =>
    split at h
    · cases h
    · cases haccess : accessFlags flags.reverse with
      | error e =>
        rw [haccess] at h
        cases h
      | ok a =>
        rw [haccess] at h
        rw [← Except.ok.inj h]
  · cases h

theorem readLines_some (s : ParseState) (words : List Text) (rest : List (Option (List Text))) :
    readLines s (some words :: rest) =
      readLine { s with line := s.line + 1 } words >>= fun next => readLines next rest := by
  rw [readLines]
  cases readLine { s with line := s.line + 1 } words with
  | error e => rfl
  | ok next => rfl

/-- Each line is kept with its number. -/
theorem ParseState.Tracks.readLine
    (hs : s.Tracks done) (h : Assembly.readLine { s with line := s.line + 1 } words = .ok s') :
    s'.Tracks (done ++ [words]) := by
  have hold : ∀ m, s.method = some m → ∀ l ∈ m.body, ∃ k word args, l.1 = k + 1 ∧
      (done ++ [words])[k]? = some (word :: args) ∧ bodyItem word args = .ok l.2 := by
    intro m hm l hl
    obtain ⟨k, word, args, hk, hdone, hitem⟩ := hs.body m hm l hl
    refine ⟨k, word, args, hk, ?_, hitem⟩
    rw [List.getElem?_append_left (List.getElem?_eq_some_iff.mp hdone).1, hdone]
  have hline : s.line + 1 = (done ++ [words]).length := by simp [hs.line]
  have hreads := reads_readLine { s with line := s.line + 1 } words
  rw [h] at hreads
  cases hreads with
  | blank => exact ⟨hline, hold⟩
  | named => exact ⟨hline, hold⟩
  | opened _ hm =>
    refine ⟨hline, ?_⟩
    rintro _ ⟨⟩
    simp [body_of_methodLine hm]
  | @added m word args item hm hwords hitem =>
    refine ⟨hline, ?_⟩
    rintro _ ⟨⟩
    refine List.forall_mem_cons.mpr ⟨?_, hold m hm⟩
    exact ⟨done.length, word, args, by rw [hs.line], by simp [hwords], hitem⟩
  | closed => exact ⟨hline, by simp⟩

theorem ParseState.Tracks.readLines {more : List (List Text)} (hs : s.Tracks done)
    (h : Assembly.readLines s (more.map some) = .ok s') : s'.Tracks (done ++ more) := by
  induction more generalizing s done with
  | nil =>
    obtain rfl := Except.ok.inj h
    simpa using hs
  | cons words more ih =>
    rw [List.map_cons, readLines_some] at h
    obtain ⟨next, hnext, h⟩ := except_bind_ok.mp h
    simpa using ih (hs.readLine hnext) h

/-- Nothing has been read yet. -/
def ParseState.start : ParseState := ⟨0, none, none⟩

theorem tracks_of_readLines (h : readLines .start (done.map some) = .ok s) : s.Tracks done := by
  have hstart : ParseState.start.Tracks [] := ⟨rfl, fun m hm => by cases hm⟩
  simpa using hstart.readLines h

/-- A text that is refused is read up to some line. -/
theorem readLines_error {ls : List (Option (List Text))} (h : readLines s ls = .error e) :
    ∃ (done : List (List Text)) (line : Option (List Text)) (others : List (Option (List Text))) (s' : ParseState),
      ls = done.map some ++ line :: others ∧ readLines s (done.map some) = .ok s' ∧
        (line = none ∧ e = ⟨s'.line + 1, .unterminated⟩ ∨
          ∃ words, line = some words ∧ readLine { s' with line := s'.line + 1 } words = .error e) := by
  induction ls generalizing s with
  | nil => cases h
  | cons line ls ih =>
    cases line with
    | none => exact ⟨[], none, ls, s, rfl, rfl, .inl ⟨rfl, (Except.error.inj h).symm⟩⟩
    | some words =>
      rw [readLines_some] at h
      rcases except_bind_error.mp h with h | ⟨next, hnext, h⟩
      · exact ⟨[], some words, ls, s, rfl, rfl, .inr ⟨words, rfl, h⟩⟩
      · obtain ⟨done, line, others, s', rfl, hread, hlast⟩ := ih h
        refine ⟨words :: done, line, others, s', rfl, ?_, hlast⟩
        rw [List.map_cons, readLines_some]
        exact except_bind_ok.mpr ⟨next, hnext, hread⟩

theorem lines_of_readLines {ls : List (Option (List Text))} (h : readLines s ls = .ok s') :
    ∃ done : List (List Text), ls = done.map some := by
  induction ls generalizing s with
  | nil => exact ⟨[], rfl⟩
  | cons line ls ih =>
    cases line with
    | none => cases h
    | some words =>
      rw [readLines_some] at h
      obtain ⟨next, -, h⟩ := except_bind_ok.mp h
      obtain ⟨done, rfl⟩ := ih h
      exact ⟨words :: done, rfl⟩

/-! ## References -/

namespace OpenMethod

variable {labels : List (Text × InsnId)} {l : Nat × Item} {body : List (Nat × Item)} {r : Resolved} {e : SourceError}

theorem resolve_error {line : Nat} {name : Text} (h : resolve labels line name = .error e) :
    e = ⟨line, .undefinedLabel name⟩ ∧ labels.lookup name = none := by
  unfold resolve at h
  split at h
  · cases h
  · next hnone => exact ⟨(Except.error.inj h).symm, hnone⟩

/-- A line that cannot be resolved refers to a label that there is not. -/
theorem resolveLine_error (h : resolveLine labels l r = .error e) :
    ∃ name ∈ l.2.references, e = ⟨l.1, .undefinedLabel name⟩ ∧ labels.lookup name = none := by
  obtain ⟨line, item⟩ := l
  have hname : ∀ name ∈ item.references, resolve labels line name = .error e →
      ∃ name ∈ item.references, e = ⟨line, .undefinedLabel name⟩ ∧ labels.lookup name = none :=
    fun name hmem h => ⟨name, hmem, resolve_error h⟩
  cases item with
  | insn x => cases h
  | label name => cases h
  | limits s l => cases h
  | jump op target =>
    rcases except_bind_error.mp h with h | ⟨t, -, h⟩
    · exact hname target (by simp [Item.references]) h
    · cases h
  | switch op keys otherwise targets =>
    rcases except_bind_error.mp h with h | ⟨d, -, h⟩
    · exact hname otherwise (by simp [Item.references]) h
    · rcases except_bind_error.mp h with h | ⟨ts, -, h⟩
      · obtain ⟨target, hmem, h⟩ := mapM_error h
        exact hname target (by simp [Item.references, hmem]) h
      · cases h
  | «variable» v start stop =>
    rcases except_bind_error.mp h with h | ⟨b, -, h⟩
    · exact hname start (by simp [Item.references]) h
    · rcases except_bind_error.mp h with h | ⟨b', -, h⟩
      · exact hname stop (by simp [Item.references]) h
      · cases h
  | handler type start stop entry =>
    rcases except_bind_error.mp h with h | ⟨b, -, h⟩
    · exact hname start (by simp [Item.references]) h
    · rcases except_bind_error.mp h with h | ⟨b', -, h⟩
      · exact hname stop (by simp [Item.references]) h
      · rcases except_bind_error.mp h with h | ⟨q, -, h⟩
        · exact hname entry (by simp [Item.references]) h
        · cases h

theorem resolveBody_error (h : resolveBody labels body r = .error e) :
    ∃ l ∈ body, ∃ name ∈ l.2.references, e = ⟨l.1, .undefinedLabel name⟩ ∧ labels.lookup name = none := by
  induction body generalizing r with
  | nil => cases h
  | cons l body ih =>
    rw [resolveBody_cons] at h
    rcases except_bind_error.mp h with h | ⟨r', -, h⟩
    · exact ⟨l, List.mem_cons_self, resolveLine_error h⟩
    · obtain ⟨l', hl', hrest⟩ := ih h
      exact ⟨l', List.mem_cons_of_mem _ hl', hrest⟩

/-- A name that is not found is not a label. -/
theorem label_not_mem_of_lookup {n : Nat} {name : Text} (h : (labelIds n body).lookup name = none) :
    ∀ l ∈ body, l.2 ≠ .label name := by
  induction body generalizing n with
  | nil => simp
  | cons l body ih =>
    obtain ⟨line, item⟩ := l
    refine List.forall_mem_cons.mpr ⟨?_, ?_⟩
    · rintro rfl
      simp [labelIds] at h
    · cases item with
      | label name' =>
        rw [labelIds, List.lookup_cons] at h
        split at h
        · cases h
        · exact ih h
      | _ => exact ih h

/-- A method that cannot be finished has a line that refers to a label which no line defines. -/
theorem finish_error {m : OpenMethod} (h : m.finish = .error e) :
    ∃ l ∈ m.body, ∃ name ∈ l.2.references, e = ⟨l.1, .undefinedLabel name⟩ ∧ m.defines name = false := by
  unfold finish at h
  rcases except_bind_error.mp h with h | ⟨r, -, h⟩
  · obtain ⟨l, hl, name, hname, rfl, hlookup⟩ := resolveBody_error h
    refine ⟨l, by simpa using hl, name, hname, rfl, ?_⟩
    rw [defines, List.any_eq_false]
    intro l' hl'
    have hne := label_not_mem_of_lookup hlookup l' (by simpa using hl')
    split
    · next n hn => simpa [hn] using hne
    · simp
  · cases h

end OpenMethod

/-! ## Errors -/

/-- The line with which `rest` starts, behind the lines of `before`, is the one that an error is about. -/
inductive Blames (e : SourceError) (before rest : Text) : Prop
  /-- A quoted word of the line is not closed. -/
  | unclosed {others : List (Option (List Text))} (hline : lines rest = none :: others)
      (hcause : e.cause = .unterminated)
  /-- The line is refused when it is read. -/
  | refused {s : ParseState} {words : List Text} {others : List (Option (List Text))}
      (hread : readLines .start (lines before) = .ok s) (hline : lines rest = some words :: others)
      (hopen : ¬ s.ClosedBy words) (hrefused : readLine { s with line := s.line + 1 } words = .error e)
  /-- The line refers to a label that its method, which ends some lines later, does not define. -/
  | reference {word name : Text} {args : List Text} {item : Item} {others : List (Option (List Text))}
      {between last : Text} {s : ParseState} {m : OpenMethod} {args' : List Text} {others' : List (Option (List Text))}
      (hline : lines rest = some (word :: args) :: others) (hitem : bodyItem word args = .ok item)
      (hname : name ∈ item.references) (hcause : e.cause = .undefinedLabel name)
      (hrest : rest = between ++ last) (hread : readLines .start (lines (before ++ between)) = .ok s)
      (hm : s.method = some m) (hbody : (e.line, item) ∈ m.body) (hdefines : m.defines name = false)
      (hend : lines last = some (("end" : Text) :: args') :: others')

/-- The place where a text breaks for the line that an error is about, with the lines before. -/
structure Location (t : Text) (e : SourceError) where
  before : Text
  rest : Text
  earlier : List (List Text)
  text : t = before ++ rest
  whole : Whole before
  lines_before : lines before = earlier.map some
  blames : Blames e before rest

theorem Location.lines_eq (l : Location t e) : lines t = l.earlier.map some ++ lines l.rest :=
  calc
    lines t = lines (l.before ++ l.rest) := congrArg lines l.text
    _ = lines l.before ++ lines l.rest := l.whole l.rest
    _ = l.earlier.map some ++ lines l.rest := by rw [l.lines_before]

/-- The line of an unresolved reference is found among those that were read before the method ended. -/
theorem exists_location_reference {args : List Text} {m : OpenMethod}
    (hlines : lines t = done.map some ++ some (("end" : Text) :: args) :: others)
    (hread : readLines .start (done.map some) = .ok s) (hm : s.method = some m) (h : m.finish = .error e) :
    ∃ l : Location t e, e.line = l.earlier.length + 1 ∧
      lineNumber l.before = l.earlier.length + 1 + innerEnds l.earlier.flatten := by
  obtain ⟨⟨n, item⟩, hl, name, hname, rfl, hdefines⟩ := OpenMethod.finish_error h
  obtain ⟨k, word, args', rfl, hk, hitem⟩ := (tracks_of_readLines hread).body m hm _ hl
  obtain ⟨hlt, hget⟩ := List.getElem?_eq_some_iff.mp hk
  have hdone : done = done.take k ++ (word :: args') :: done.drop (k + 1) := by
    rw [← hget, ← List.drop_eq_getElem_cons hlt, List.take_append_drop]
  have hsplit : lines t = (done.take k).map some ++
      some (word :: args') :: ((done.drop (k + 1)).map some ++ some (("end" : Text) :: args) :: others) := by
    rw [hlines]
    conv_lhs => rw [hdone]
    simp
  -- The text breaks twice: at the line of the reference, and at the end of the method.
  obtain ⟨before, rest, rfl, hwhole, hbefore, hrest, hnumber⟩ := split_lines hsplit
  rw [← List.cons_append, ← List.map_cons] at hrest
  obtain ⟨between, last, rfl, -, hbetween, hlast, -⟩ := split_lines hrest
  have hall : lines (before ++ between) = done.map some := by
    rw [hwhole, hbefore, hbetween, ← List.map_append, ← hdone]
  refine ⟨⟨before, between ++ last, done.take k, rfl, hwhole, hbefore, ?_⟩, ?_, hnumber⟩
  · exact .reference hrest hitem hname rfl rfl (hall ▸ hread) hm hl hdefines hlast
  · rw [List.length_take_of_le (Nat.le_of_lt hlt)]

/-- An error while lines are read is about one of them. -/
theorem exists_location (h : readLines .start (lines t) = .error e) :
    ∃ l : Location t e, e.line = l.earlier.length + 1 ∧
      lineNumber l.before = l.earlier.length + 1 + innerEnds l.earlier.flatten := by
  obtain ⟨done, line, others, s, hlines, hread, hlast⟩ := readLines_error h
  have hcounted : s.line = done.length := (tracks_of_readLines hread).line
  obtain ⟨before, rest, ht, hwhole, hbefore, hrest, hnumber⟩ := split_lines hlines
  rcases hlast with ⟨rfl, rfl⟩ | ⟨words, rfl, hrefused⟩
  · exact ⟨⟨before, rest, done, ht, hwhole, hbefore, .unclosed hrest rfl⟩, congrArg (· + 1) hcounted, hnumber⟩
  · have hreads := reads_readLine { s with line := s.line + 1 } words
    rw [hrefused] at hreads
    cases hreads with
    | refused hopen =>
      have hblames := Blames.refused (s := s) (hbefore ▸ hread) hrest hopen hrefused
      exact ⟨⟨before, rest, done, ht, hwhole, hbefore, hblames⟩, congrArg (· + 1) hcounted, hnumber⟩
    | unfinished hm hwords hfinish =>
      rw [hwords] at hlines
      exact exists_location_reference hlines hread hm hfinish

/-- The line that an error names. Either it is about a line of the text: then the number is that of the line, less the
line ends within the words of earlier lines, so it is right iff no such word has one. Or all lines are read, and the
number is that of the last one. -/
theorem parse_error_line {t : Text} {e : SourceError} (h : parse t = .error e) :
    (∃ l : Location t e, e.line = l.earlier.length + 1 ∧
      lineNumber l.before = e.line + innerEnds l.earlier.flatten ∧
      (e.line = lineNumber l.before ↔ ∀ words ∈ l.earlier, ∀ w ∈ words, 10 ∉ w)) ∨
    ∃ s, readLines .start (lines t) = .ok s ∧ e.line = (lines t).length ∧
      ((∃ m, s.method = some m ∧ e.cause = .endExpected m.name) ∨
        s.method = none ∧ s.classModel = none ∧ e.cause = .classExpected) := by
  rw [parse] at h
  rcases except_bind_error.mp h with hlines | ⟨s, hread, h⟩
  · obtain ⟨l, hline, hnumber⟩ := exists_location hlines
    rw [← hline] at hnumber
    refine .inl ⟨l, hline, hnumber, ?_⟩
    rw [hnumber, left_eq_add, innerEnds_flatten_eq_zero_iff]
  · refine .inr ⟨s, hread, ?_⟩
    obtain ⟨done, hdone⟩ := lines_of_readLines hread
    have hcounted : s.line = (lines t).length := by
      rw [hdone, List.length_map]
      exact (tracks_of_readLines (hdone ▸ hread)).line
    split at h
    · next m hm =>
      obtain rfl := Except.error.inj h
      exact ⟨hcounted, .inl ⟨m, hm, rfl⟩⟩
    · next hm =>
      split at h
      · next hc =>
        obtain rfl := Except.error.inj h
        exact ⟨hcounted, .inr ⟨hm, hc, rfl⟩⟩
      · cases h

/-- A class with a line end in its name, and a jump to a label that there is not. -/
def brokenName : Text :=
  "class \"A\\\nB\"\nmethod static m ()V\n\tgoto x\n\treturn\nend\n"

/-- The jump stands on the fourth line, and the error names the third. -/
theorem parse_error_line_brokenName : ∃ e, ∃ l : Location brokenName e,
    parse brokenName = .error e ∧ e.line = 3 ∧ lineNumber l.before = 4 := by
  have hruns : ((parse brokenName).map fun _ => ()).mapError SourceError.line = .error 3 := by decide +kernel
  have hends : innerEnds (((lines brokenName).take 2).filterMap id).flatten = 1 := by decide +kernel
  have hlength : (lines brokenName).length = 5 := by decide +kernel
  cases hparse : parse brokenName with
  | ok c =>
    rw [hparse] at hruns
    cases hruns
  | error e =>
    rw [hparse] at hruns
    have hline : e.line = 3 := Except.error.inj hruns
    rcases parse_error_line hparse with ⟨l, hcount, hnumber, -⟩ | ⟨s, -, hlast, -⟩
    · have hearlier : ((lines brokenName).take 2).filterMap id = l.earlier := by
        rw [l.lines_eq, List.take_left' (by rw [List.length_map]; omega)]
        simp
      rw [hearlier] at hends
      exact ⟨e, l, rfl, hline, by omega⟩
    · omega

end CoordSplit.Assembly
