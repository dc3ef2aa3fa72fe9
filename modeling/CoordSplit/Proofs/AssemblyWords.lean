import CoordSplit.Assembly.Lexeme
import CoordSplit.Proofs.AssemblyPrinting

/-!
# Words of assembly text are read back

`IsWord w` says that the bytes `w`, with a blank or the end of a line behind them, are read as the one word `w`. All
words of a text are such (`isWord_of_mem_lines`), quoted ones included, so a line that is printed from words of a
text is read as the same words again (`groupLines_text`).
-/

set_option autoImplicit false

namespace CoordSplit.Assembly

/-- Whether a byte ends a word that has no quotes. -/
def isBreak (b : UInt8) : Bool := b = 10 || isBlank b

/-- The bytes are read as one word wherever a byte that ends a word follows. -/
def IsWord (w : Text) : Prop :=
  ∀ b rest, isBreak b = true → lex .between (w ++ b :: rest) = .word w :: lex .between (b :: rest)

theorem lex_between (b : UInt8) (rest : Text) :
    lex .between (b :: rest) =
      if b = 10 then .lineEnd :: lex .between rest
      else if isBlank b then lex .between rest
      else if b = 59 then lex .comment rest
      else if b = 47 && rest.head? = some 47 then lex .comment rest
      else if b = 34 then lex (.quoted [b]) rest
      else lex (.word [b]) rest := rfl

theorem lex_word (read : Text) (b : UInt8) (rest : Text) :
    lex (.word read) (b :: rest) =
      if b = 10 then .word read.reverse :: .lineEnd :: lex .between rest
      else if isBlank b then .word read.reverse :: lex .between rest
      else lex (.word (b :: read)) rest := rfl

theorem lex_quoted (read : Text) (b : UInt8) (rest : Text) :
    lex (.quoted read) (b :: rest) =
      if b = 34 then .word (b :: read).reverse :: lex .between rest
      else if b = 10 then [.unterminated]
      else if b = 92 then lex (.escape (b :: read)) rest
      else lex (.quoted (b :: read)) rest := rfl

theorem lex_lineEnd (rest : Text) : lex .between (10 :: rest) = .lineEnd :: lex .between rest := rfl

theorem lex_blank {b : UInt8} (h : isBlank b = true) (rest : Text) : lex .between (b :: rest) = lex .between rest := by
  have hend : b ≠ 10 := by
    rintro rfl
    simp [isBlank] at h
  rw [lex_between, if_neg hend, if_pos h]

/-! ## The words of a text -/

/-- The bytes that a state has collected lead to the state when they are read from the start. After a single slash
this holds only if no second one follows, which the text that is left tells. -/
def LexState.Sound : LexState → Text → Prop
  | .word read, t => ∀ tail, (tail.head? = some 47 → t.head? = some 47) →
      lex .between (read.reverse ++ tail) = lex (.word read) tail
  | .quoted read, _ => ∀ tail, lex .between (read.reverse ++ tail) = lex (.quoted read) tail
  | .escape read, _ => ∀ tail, lex .between (read.reverse ++ tail) = lex (.escape read) tail
  | .between, _ | .comment, _ => True

variable {t w : Text} {ws : List Text}

theorem isWord_of_word {read : Text} (h : LexState.Sound (.word read) t) : IsWord read.reverse := by
  intro b rest hb
  have hslash : b ≠ 47 := by
    rintro rfl
    simp [isBreak, isBlank] at hb
  rw [h _ (by simp [hslash]), lex_word]
  unfold isBreak at hb
  by_cases hend : b = 10
  · simp [hend, lex_lineEnd]
  · have hblank : isBlank b = true := by simpa [hend] using hb
    simp [hend, hblank, lex_blank]

theorem isWord_of_quoted {read : Text} (h : LexState.Sound (.quoted read) t) : IsWord (34 :: read).reverse := by
  intro b rest _
  rw [List.reverse_cons, List.append_assoc, List.singleton_append, h, lex_quoted, if_pos rfl, List.reverse_cons]

namespace LexState.Sound

variable {read t : Text} {b : UInt8}

theorem word_first (hend : b ≠ 10) (hblank : isBlank b = false) (hcomment : b ≠ 59) (hquote : b ≠ 34)
    (hslash : ¬ (b = 47 ∧ t.head? = some 47)) : Sound (.word [b]) t := by
  intro tail htail
  have hslash' : ¬ (b = 47 ∧ tail.head? = some 47) := fun h => hslash ⟨h.1, htail h.2⟩
  simp [lex_between, hend, hblank, hcomment, hquote, hslash']

theorem word_next (h : Sound (.word read) (b :: t)) (hend : b ≠ 10) (hblank : isBlank b = false) :
    Sound (.word (b :: read)) t := by
  intro tail _
  rw [List.reverse_cons, List.append_assoc, List.singleton_append, h _ (by simp), lex_word]
  simp [hend, hblank]

theorem quoted_first : Sound (.quoted [34]) t := by
  intro tail
  simp [lex_between, isBlank]

theorem quoted_next (h : Sound (.quoted read) (b :: t)) (hquote : b ≠ 34) (hend : b ≠ 10) (hslash : b ≠ 92) :
    Sound (.quoted (b :: read)) t := by
  intro tail
  rw [List.reverse_cons, List.append_assoc, List.singleton_append, h, lex_quoted]
  simp [hquote, hend, hslash]

theorem escape_first (h : Sound (.quoted read) (92 :: t)) : Sound (.escape (92 :: read)) t := by
  intro tail
  rw [List.reverse_cons, List.append_assoc, List.singleton_append, h, lex_quoted]
  simp

theorem escape_next (h : Sound (.escape read) (b :: t)) : Sound (.quoted (b :: read)) t := by
  intro tail
  rw [List.reverse_cons, List.append_assoc, List.singleton_append, h]
  rfl

end LexState.Sound

/-- Every word that is read is read again. -/
theorem isWord_of_mem_lex {st : LexState} {t w : Text} (hst : st.Sound t) (h : Lexeme.word w ∈ lex st t) :
    IsWord w := by
  fun_induction lex st t with
  | case1 | case2 | case4 | case5 => simp at h
  | case3 read =>
    obtain rfl : w = read.reverse := by simpa using h
    exact isWord_of_word hst
  | case6 rest ih => exact ih trivial (by simpa using h)
  | case7 b rest hend hblank ih => exact ih trivial h
  | case8 rest hend hblank ih => exact ih trivial h
  | case9 b rest hend hblank hcomment hslash ih => exact ih trivial h
  | case10 rest hend hblank hcomment hslash ih => exact ih .quoted_first h
  | case11 b rest hend hblank hcomment hslash hquote ih =>
    exact ih (.word_first hend (by simpa using hblank) hcomment hquote (by simpa using hslash)) h
  | case12 read rest ih =>
    simp only [List.mem_cons, Lexeme.word.injEq, reduceCtorEq, false_or] at h
    rcases h with rfl | h
    · exact isWord_of_word hst
    · exact ih trivial h
  | case13 read b rest hend hblank ih =>
    simp only [List.mem_cons, Lexeme.word.injEq] at h
    rcases h with rfl | h
    · exact isWord_of_word hst
    · exact ih trivial h
  | case14 read b rest hend hblank ih => exact ih (hst.word_next hend (by simpa using hblank)) h
  | case15 read rest ih =>
    simp only [List.mem_cons, Lexeme.word.injEq] at h
    rcases h with rfl | h
    · exact isWord_of_quoted hst
    · exact ih trivial h
  | case16 => simp at h
  | case17 read rest hquote hend ih => exact ih hst.escape_first h
  | case18 read b rest hquote hend hslash ih => exact ih (hst.quoted_next hquote hend hslash) h
  | case19 read b rest ih => exact ih hst.escape_next h
  | case20 rest ih => exact ih trivial (by simpa using h)
  | case21 b rest hend ih => exact ih trivial h

/-- The words of lines are those that were read. -/
theorem mem_groupLines {read : List Text} {ls : List Lexeme}
    (h : some ws ∈ groupLines read ls) (hw : w ∈ ws) : w ∈ read ∨ Lexeme.word w ∈ ls := by
  fun_induction groupLines read ls with
  | case1 => simp at h
  | case2 read v rest ih =>
    rcases ih h with hread | hrest
    · rcases List.mem_cons.mp hread with rfl | hread
      · exact .inr (by simp)
      · exact .inl hread
    · exact .inr (by simp [hrest])
  | case3 read rest ih =>
    rcases List.mem_cons.mp h with heq | h
    · obtain rfl := Option.some.inj heq
      exact .inl (by simpa using hw)
    · rcases ih h with hread | hrest
      · simp at hread
      · exact .inr (by simp [hrest])
  | case4 => simp at h

/-- The words of the lines of a text are words. -/
theorem isWord_of_mem_lines (h : some ws ∈ lines t) (hw : w ∈ ws) : IsWord w := by
  rcases mem_groupLines h hw with hread | hlex
  · simp at hread
  · exact @isWord_of_mem_lex .between _ _ trivial hlex

/-! ## Words that are written -/

/-- Bytes without blanks are a word, unless they start like a quoted word or a comment. -/
theorem isWord_of_forall {b : UInt8} (hfirst : b ≠ 34 ∧ b ≠ 47 ∧ b ≠ 59)
    (hall : ∀ c ∈ b :: w, isBreak c = false) : IsWord (b :: w) := by
  have hbreak : ∀ c ∈ b :: w, c ≠ 10 ∧ isBlank c = false := by
    intro c hc
    simpa [isBreak] using hall c hc
  -- the state after the first byte is sound in front of any text, and stays so
  have hword : ∀ read v : Text, (∀ t, LexState.Sound (.word read) t) → (∀ c ∈ v, c ≠ 10 ∧ isBlank c = false) →
      ∀ t, LexState.Sound (.word (v.reverse ++ read)) t := by
    intro read v
    induction v generalizing read with
    | nil => intro h _; simpa using h
    | cons c v ih =>
      intro h hv
      obtain ⟨hend, hblank⟩ := hv c (by simp)
      have hnext := ih (c :: read) (fun t => (h (c :: t)).word_next hend hblank) fun d hd => hv d (by simp [hd])
      simpa using hnext
  obtain ⟨hend, hblank⟩ := hbreak b (by simp)
  have hsound := hword [b] w (fun t => .word_first hend hblank hfirst.2.2 hfirst.1 fun h => hfirst.2.1 h.1)
    (fun c hc => hbreak c (by simp [hc])) []
  simpa using isWord_of_word hsound

/-- Words with blanks before them are read one by one up to the end of the line. -/
theorem lex_spaced (h : ∀ w ∈ ws, IsWord w) (rest : Text) :
    lex .between (spaced ws ++ 10 :: rest) = ws.map .word ++ .lineEnd :: lex .between rest := by
  induction ws with
  | nil => rfl
  | cons w ws ih =>
    have hblank : lex .between (32 :: (w ++ (spaced ws ++ 10 :: rest))) =
        lex .between (w ++ (spaced ws ++ 10 :: rest)) := by
      exact lex_blank (by decide) _
    have hw := h w (by simp)
    rw [spaced_cons, List.cons_append, List.append_assoc, hblank, List.map_cons, List.cons_append,
      ← ih fun v hv => h v (by simp [hv])]
    -- what follows a word starts with a blank or ends the line
    cases ws with
    | nil => exact hw 10 rest (by decide)
    | cons v vs => exact hw 32 _ (by decide)

/-- The line consists of words. -/
def PrintedLine.Legible (l : PrintedLine) : Prop := ∀ w ∈ l.word :: l.args, IsWord w

theorem groupLines_words (read ws : List Text) (rest : List Lexeme) :
    groupLines read (ws.map .word ++ .lineEnd :: rest) = some (read.reverse ++ ws) :: groupLines [] rest := by
  induction ws generalizing read with
  | nil => simp [groupLines]
  | cons w ws ih => simp [groupLines, ih]

/-- A printed line is read as its words. -/
theorem groupLines_text {l : PrintedLine} (h : l.Legible) (rest : Text) :
    groupLines [] (lex .between (l.text ++ rest)) = some (l.word :: l.args) :: groupLines [] (lex .between rest) := by
  have hindent : lex .between (l.text ++ rest) = lex .between (spaced (l.word :: l.args) ++ 10 :: rest) := by
    unfold PrintedLine.text
    split <;> simp [lex_blank, isBlank]
  rw [hindent, lex_spaced h, groupLines_words]
  rfl

theorem groupLines_end (rest : Text) :
    groupLines [] (lex .between (10 :: rest)) = some [] :: groupLines [] (lex .between rest) := rfl

end CoordSplit.Assembly
