import CoordSplit.Assembly.Printer
import CoordSplit.Proofs.ReferenceIntegrity
import CoordSplit.Proofs.WrittenForms

/-!
# The lines of printed assembly text

A printed class is a sequence of lines, and a line a sequence of words with blanks between them (`PrintedLine`). A
method whose references are all labels has a text iff all its instructions do (`Insn.isPrintable`), and the text is
that of its lines (`methodText_eq`, `methodText_ok_iff`).
-/

set_option autoImplicit false

namespace CoordSplit

open Text

/-- Whether an instruction can be written, given that what it refers to can. -/
def Insn.isPrintable : Insn → Bool
  | .ldc (.truth _) => false
  | .switch op keys _ targets => op = .tableswitch || targets.length ≤ keys.length
  | _ => true

/-- The name of a label in text: labels are numbered as they stand in the code. -/
def Code.labelText (c : Code) (id : InsnId) : Text := 76 :: ofNat (c.labels.idxOf id)

namespace Assembly

/-! ## Words -/

/-- Words with a blank before each. -/
def spaced (ws : List Text) : Text := ws.flatMap fun w => 32 :: w

/-- No words. -/
@[simp] theorem spaced_nil : spaced [] = [] := rfl

/-- A word and those behind it. -/
@[simp] theorem spaced_cons (w : Text) (ws : List Text) : spaced (w :: ws) = 32 :: (w ++ spaced ws) := rfl

/-- Words are joined by blanks. -/
theorem join_blank (w : Text) (ws : List Text) : join [32] (w :: ws) = w ++ spaced ws := by
  induction ws generalizing w with
  | nil => simp [join]
  | cons v vs ih => rw [join, ih]; simp

/-- The blank, as a byte. -/
theorem blank_eq : (" " : Text) = [32] := by decide

/-! ## References -/

/-- Labels are numbered in the order of the lines. -/
theorem numberLabels_eq (n : Nat) (ls : List (InsnId × Insn)) :
    numberLabels n ls = ((ls.filter fun p => p.2.isLabel).map Prod.fst).zipIdx n := by
  induction ls generalizing n with
  | nil => rfl
  | cons p ls ih =>
    rw [numberLabels]
    split
    · next hlabel => simp [ih, hlabel]
    · next hlabel => simp [ih, hlabel]

/-- The labels of a code, and no others, have names. -/
theorem lookup_labelNames (c : Code) (id : InsnId) :
    (labelNames c).lookup id = if id ∈ c.labels then some (c.labelText id) else none := by
  have h := lookup_zipIdx (fun k => (76 :: ofNat k : Text)) c.labels 0 id
  rw [Nat.zero_add] at h
  rw [labelNames, numberLabels_eq]
  exact h

variable {c : Code} {id : InsnId} {t : Text} {x : Insn}

/-- References to labels are the names of the labels. -/
theorem references_eq {ids : List InsnId} (h : ∀ q ∈ id :: ids, q ∈ c.labels) :
    references (labelNames c) (id :: ids) = .ok (c.labelText id ++ spaced (ids.map c.labelText)) := by
  rw [references, mapM_eq_ok fun q hq => by rw [lookup_labelNames, if_pos (h q hq)]]
  simp only [bind, Except.bind, pure, Except.pure, blank_eq, List.map_cons, join_blank]

/-- A reference to one label is its name. -/
theorem reference_eq (h : id ∈ c.labels) : references (labelNames c) [id] = .ok (c.labelText id) := by
  rw [references_eq (by simpa using h)]
  simp

/-! ## Operands -/

/-- The words that write a constant. -/
def constantWords : Constant → List Text
  | .int v => [ofInt v.toInt]
  | .long v => [ofInt v.toInt ++ [76]]
  | .float bits => [BinaryFormat.single.render bits.toNat ++ [70]]
  | .double bits => [BinaryFormat.double.render bits.toNat ++ [68]]
  | .string s => [quote s]
  | .type t => ["class", t.display]
  | .truth _ => []

/-- The words that write the operands of an instruction, where `name` gives the names of labels. -/
def operandWords (name : InsnId → Text) : Insn → List Text
  | .plain _ | .label => []
  | .var _ slot => [ofInt slot]
  | .iinc slot delta => [ofInt slot, ofInt delta.toInt]
  | .push op v => [if op = .newarray then (arrayElementName? v).getD [] else ofInt v.toInt]
  | .ldc c => constantWords c
  | .jump _ target => [name target]
  | .switch op keys otherwise targets =>
    if op = .tableswitch then
      ofInt ((keys.head?.map Int32.toInt).getD 0) :: name otherwise :: targets.map name
    else name otherwise :: (keys.zip targets).map fun p => ofInt p.1.toInt ++ 58 :: name p.2
  | .field _ m => [m.owner ++ 35 :: m.name, m.desc]
  | .call op m itf => (if itf && op ≠ .invokeinterface then [("itf" : Text)] else []) ++
      [if m.owner.isEmpty then m.name else m.owner ++ 35 :: m.name, m.desc]
  | .type _ name => [name]
  | .multiArray desc dims => [desc, ofInt dims]

/-- The key of a member, as bytes. -/
theorem key_eq (m : Member) : m.key = m.owner ++ 35 :: m.name ++ 32 :: m.desc := by
  have hsharp : ("#" : Text) = [35] := by decide
  simp [Member.key, concat, hsharp, blank_eq]

/-- A constant that can be written is written by its words. -/
theorem constantText_eq {c : Constant} (h : (Insn.ldc c).isPrintable = true) :
    (constantText c).map ((" " : Text) ++ ·) = .ok (spaced (constantWords c)) := by
  have hlong : ("L" : Text) = [76] := by decide
  have hfloat : ("F" : Text) = [70] := by decide
  have hdouble : ("D" : Text) = [68] := by decide
  have hclass : ("class " : Text) = ("class" : Text) ++ [32] := by decide
  cases c with
  | truth b => simp [Insn.isPrintable] at h
  | type t => simp [constantText, constantWords, Except.map, hclass, blank_eq]
  | _ => simp [constantText, constantWords, Except.map, hlong, hfloat, hdouble, blank_eq]

/-- The cases of a switch are keys and labels. -/
theorem caseTexts_eq {keys : List Int32} {targets : List InsnId} (hlength : targets.length ≤ keys.length)
    (h : ∀ t ∈ targets, t ∈ c.labels) :
    caseTexts (labelNames c) keys targets =
      .ok (spaced ((keys.zip targets).map fun p => ofInt p.1.toInt ++ 58 :: c.labelText p.2)) := by
  have hcolon : (":" : Text) = [58] := by decide
  induction targets generalizing keys with
  | nil => cases keys <;> rfl
  | cons t targets ih =>
    cases keys with
    | nil => simp at hlength
    | cons k keys =>
      rw [caseTexts, reference_eq (h t (by simp)), ih (by simpa using hlength) fun q hq => h q (by simp [hq])]
      simp [bind, Except.bind, pure, Except.pure, Outcome.lift, concat, hcolon, blank_eq]

/-- Cases that can be written have keys. -/
theorem length_le_of_caseTexts {ls : LabelNames} {keys : List Int32} {targets : List InsnId}
    (h : caseTexts ls keys targets = .ok t) : targets.length ≤ keys.length := by
  induction targets generalizing keys t with
  | nil => simp
  | cons q targets ih =>
    cases keys with
    | nil => simp [caseTexts] at h
    | cons k keys =>
      rw [caseTexts] at h
      obtain ⟨_, _, h⟩ := except_bind_ok.mp h
      obtain ⟨rest, hrest, -⟩ := except_bind_ok.mp h
      simpa using ih hrest

/-- The operands of an instruction that can be written are written by their words. -/
theorem operands_eq (hx : x.isPrintable = true) (hlabel : x.isLabel = false) (h : ∀ t ∈ x.targets, t ∈ c.labels) :
    operands (labelNames c) x = .ok (spaced (operandWords c.labelText x)) := by
  cases x with
  | plain op => rfl
  | label => simp [Insn.isLabel] at hlabel
  | push op v =>
    rw [operands, operandWords]
    split <;> simp [blank_eq]
  | ldc v =>
    rw [operands, constantText_eq hx]
    rfl
  | jump op t =>
    rw [operands, reference_eq (h t (by simp [Insn.targets]))]
    simp [Except.map, Outcome.lift, operandWords, blank_eq]
  | switch op keys otherwise targets =>
    rw [operands, operandWords]
    split
    · rw [references_eq h]
      simp [bind, Except.bind, pure, Except.pure, Outcome.lift, concat, blank_eq]
    · next hop =>
      have hlength : targets.length ≤ keys.length := by simpa [Insn.isPrintable, hop] using hx
      rw [reference_eq (h otherwise (by simp [Insn.targets])),
        caseTexts_eq hlength fun t ht => h t (by simp [Insn.targets, ht])]
      simp [bind, Except.bind, pure, Except.pure, Outcome.lift, concat, blank_eq]
  | field op m => simp [operands, operandWords, key_eq, blank_eq]
  | call op m itf =>
    have hitf : (" itf " : Text) = 32 :: ("itf" : Text) ++ [32] := by decide
    rw [operands, operandWords]
    split <;> split <;> simp [concat, key_eq, hitf, blank_eq]
  | _ => simp [operands, operandWords, concat, blank_eq]

/-- Only what can be written has a text of its operands. -/
theorem isPrintable_of_operands {ls : LabelNames} (h : operands ls x = .ok t) : x.isPrintable = true := by
  cases x with
  | ldc v => cases v <;> first | rfl | simp [operands, constantText, Except.map, Outcome.lift] at h
  | switch op keys otherwise targets =>
    rw [operands] at h
    split at h
    · next hop => simp [Insn.isPrintable, hop]
    · obtain ⟨_, _, h⟩ := except_bind_ok.mp h
      obtain ⟨rest, hrest, -⟩ := except_bind_ok.mp h
      simp [Insn.isPrintable, length_le_of_caseTexts hrest]
  | _ => rfl

/-! ## Lines -/

/-- A line of text, by its words. -/
structure PrintedLine where
  indented : Bool
  word : Text
  args : List Text

/-- The text of a line. -/
def PrintedLine.text (l : PrintedLine) : Text :=
  (if l.indented then [9] else []) ++ l.word ++ spaced l.args ++ [10]

/-- A line at the margin. -/
theorem PrintedLine.text_margin (word : Text) (args : List Text) :
    PrintedLine.text ⟨false, word, args⟩ = word ++ spaced args ++ [10] := rfl

/-- The line of an instruction of a code. -/
def insnLine (c : Code) (p : InsnId × Insn) : PrintedLine :=
  if p.2.isLabel then ⟨false, c.labelText p.1 ++ [58], []⟩
  else ⟨true, p.2.opcode.name, operandWords c.labelText p.2⟩

/-- The line of a variable. -/
def variableLine (c : Code) (v : LocalVar) : PrintedLine :=
  ⟨true, "local", [v.name, v.desc, ofInt v.slot, c.labelText v.start, c.labelText v.stop] ++
    if v.signature.isEmpty then [] else [v.signature]⟩

/-- The line of a handler. -/
def handlerLine (c : Code) (h : Handler) : PrintedLine :=
  ⟨true, "catch", [if h.type.isEmpty then "any" else h.type, c.labelText h.start, c.labelText h.stop,
    c.labelText h.handler]⟩

/-- The line of the limits of a method, unless they are zero. -/
def limitLines (m : Method) : List PrintedLine :=
  if m.maxStack = 0 ∧ m.maxLocals = 0 then []
  else [⟨true, "maxs", [ofInt m.maxStack, ofInt m.maxLocals]⟩]

/-- The lines of a method body. -/
def bodyLines (m : Method) : List PrintedLine :=
  limitLines m ++ m.code.listing.map (insnLine m.code) ++ m.locals.map (variableLine m.code) ++
    m.handlers.map (handlerLine m.code)

/-- The lines of a method. -/
def methodLines (m : Method) : List PrintedLine :=
  ⟨false, "method", m.access.names ++ [m.name, m.desc]⟩ :: bodyLines m ++ [⟨false, "end", []⟩]

/-- An instruction is written by its name and its operands. -/
theorem insnText_eq (id : InsnId) (hx : x.isPrintable = true) (hlabel : x.isLabel = false)
    (h : ∀ t ∈ x.targets, t ∈ c.labels) :
    insnText (labelNames c) id x = .ok (x.opcode.name ++ spaced (operandWords c.labelText x)) := by
  have hmapped := @Outcome.mapError_ok _ _ _ (PrintError.within ("insn " ++ ofInt id)) _ _ |>.mpr
    (operands_eq hx hlabel h)
  unfold insnText
  split
  · simp [Insn.isLabel] at hlabel
  · rw [hmapped]
    rfl

/-- The text of a code is that of its lines. -/
theorem codeText_eq {ls : List (InsnId × Insn)}
    (h : ∀ p ∈ ls, p ∈ c.listing ∧ p.2.isPrintable = true ∧ ∀ t ∈ p.2.targets, t ∈ c.labels) :
    codeText (labelNames c) ls = .ok (ls.flatMap fun p => (insnLine c p).text) := by
  have hcolon : (":\n" : Text) = [58, 10] := by decide
  have htab : ("\t" : Text) = [9] := by decide
  have hend : ("\n" : Text) = [10] := by decide
  induction ls with
  | nil => rfl
  | cons p ls ih =>
    obtain ⟨id, x⟩ := p
    obtain ⟨hmem, hx, htargets⟩ := h _ (List.mem_cons_self ..)
    rw [codeText, ih fun q hq => h q (by simp [hq])]
    by_cases hlabel : x.isLabel = true
    · have hid : id ∈ c.labels := by
        rw [Code.mem_labels, ← Insn.eq_label_of_isLabel hlabel]
        exact hmem
      simp [hlabel, lookup_labelNames, hid, insnLine, PrintedLine.text, hcolon, bind, Except.bind, pure, Except.pure]
    · have hlabel : x.isLabel = false := by simpa using hlabel
      simp [hlabel, insnText_eq id hx hlabel htargets, insnLine, PrintedLine.text, concat, htab, hend, bind,
        Except.bind, pure, Except.pure]

/-- Only what can be written has a text. -/
theorem isPrintable_of_insnText {names : LabelNames} (h : insnText names id x = .ok t) : x.isPrintable = true := by
  cases x with
  | label => rfl
  | _ =>
    obtain ⟨rest, hrest, -⟩ := except_bind_ok.mp h
    exact isPrintable_of_operands (Outcome.mapError_ok.mp hrest)

/-- A code has a text only if its instructions can be written. -/
theorem isPrintable_of_codeText {names : LabelNames} {ls : List (InsnId × Insn)}
    (h : codeText names ls = .ok t) : ∀ p ∈ ls, p.2.isPrintable = true := by
  induction ls generalizing t with
  | nil => simp
  | cons p ls ih =>
    obtain ⟨id, x⟩ := p
    rw [codeText] at h
    rw [List.forall_mem_cons]
    split at h
    · next hlabel =>
      obtain ⟨line, _, h⟩ := except_bind_ok.mp h
      obtain ⟨tail, htail, -⟩ := except_bind_ok.mp h
      exact ⟨by rw [Insn.eq_label_of_isLabel hlabel]; rfl, ih htail⟩
    · obtain ⟨text, htext, h⟩ := except_bind_ok.mp h
      obtain ⟨line, _, h⟩ := except_bind_ok.mp h
      obtain ⟨tail, htail, -⟩ := except_bind_ok.mp h
      exact ⟨isPrintable_of_insnText htext, ih htail⟩

/-- The line of a variable. -/
theorem variableText_eq {v : LocalVar} (h : v.start ∈ c.labels ∧ v.stop ∈ c.labels) :
    variableText (labelNames c) v = .ok (variableLine c v).text := by
  have hlocal : ("\tlocal " : Text) = 9 :: ("local" : Text) ++ [32] := by decide
  have hend : ("\n" : Text) = [10] := by decide
  rw [variableText, references_eq (by simpa using h)]
  simp only [Outcome.ofExcept, bind, Except.bind, pure, Except.pure, variableLine, PrintedLine.text, concat,
    hlocal, hend, blank_eq]
  split <;> simp

/-- The line of a handler. -/
theorem handlerText_eq {h : Handler} (hh : h.start ∈ c.labels ∧ h.stop ∈ c.labels ∧ h.handler ∈ c.labels) :
    handlerText (labelNames c) h = .ok (handlerLine c h).text := by
  have hcatch : ("\tcatch " : Text) = 9 :: ("catch" : Text) ++ [32] := by decide
  have hend : ("\n" : Text) = [10] := by decide
  rw [handlerText, references_eq (by simpa using hh)]
  simp [Outcome.ofExcept, bind, Except.bind, pure, Except.pure, handlerLine, PrintedLine.text, concat, hcatch,
    hend, blank_eq]

/-! ## Methods and classes -/

variable {m : Method}

/-- A method whose references are labels and whose instructions can be written has the text of its lines. -/
theorem methodText_eq (hm : m.Anchored) (hprint : ∀ p ∈ m.code.listing, p.2.isPrintable = true) :
    methodText m = .ok ((methodLines m).flatMap PrintedLine.text) := by
  obtain ⟨htargets, hlocals, hhandlers⟩ := Method.anchored_iff.mp hm
  have hcode : codeText (labelNames m.code) m.code.listing =
      .ok (m.code.listing.flatMap fun p => (insnLine m.code p).text) :=
    codeText_eq fun p hp => ⟨hp, hprint p hp, htargets p hp⟩
  have hlocals : m.locals.mapM (variableText (labelNames m.code)) =
      .ok (m.locals.map fun v => (variableLine m.code v).text) := mapM_eq_ok fun v hv => variableText_eq (hlocals v hv)
  have hhandlers : m.handlers.mapM (handlerText (labelNames m.code)) =
      .ok (m.handlers.map fun h => (handlerLine m.code h).text) :=
    mapM_eq_ok fun h hh => handlerText_eq (hhandlers h hh)
  have hlimits : (if m.maxStack = 0 ∧ m.maxLocals = 0 then ([] : Text)
      else concat ["\tmaxs ", ofInt m.maxStack, " ", ofInt m.maxLocals, "\n"]) =
      (limitLines m).flatMap PrintedLine.text := by
    have hmaxs : ("\tmaxs " : Text) = 9 :: ("maxs" : Text) ++ [32] := by decide
    have hnewline : ("\n" : Text) = [10] := by decide
    rw [limitLines]
    split <;> simp [PrintedLine.text, concat, hmaxs, hnewline, blank_eq]
  have hend : ("end\n" : Text) = ("end" : Text) ++ [10] := by decide
  have hnewline : ("\n" : Text) = [10] := by decide
  rw [methodText, hcode, hlocals, hhandlers]
  simp only [bind, Except.bind, pure, Except.pure]
  rw [hlimits]
  simp [methodLines, bodyLines, PrintedLine.text_margin, concat, spaced, List.flatMap_def, Function.comp_def,
    hend, hnewline, blank_eq]

/-- A method whose references are labels has a text iff all its instructions can be written. -/
theorem methodText_ok_iff (hm : m.Anchored) :
    (∃ t, methodText m = .ok t) ↔ ∀ p ∈ m.code.listing, p.2.isPrintable = true := by
  constructor
  · rintro ⟨t, ht⟩
    rw [methodText] at ht
    obtain ⟨code, hcode, -⟩ := except_bind_ok.mp ht
    exact isPrintable_of_codeText hcode
  · intro h
    exact ⟨_, methodText_eq hm h⟩

/-- The first line of a class. -/
def classLine (c : ClassModel) : PrintedLine :=
  ⟨false, "class", c.name :: if c.parent.isEmpty ∨ c.parent = ClassModel.defaultParent then [] else [c.parent]⟩

/-- A class whose methods have a text has the text of its lines, with an empty line before each method. -/
theorem classText_eq {c : ClassModel} (h : ∀ m ∈ c.methods, m.Anchored ∧ ∀ p ∈ m.code.listing, p.2.isPrintable = true) :
    classText c =
      .ok ((classLine c).text ++ c.methods.flatMap fun m => 10 :: (methodLines m).flatMap PrintedLine.text) := by
  have hmethods : (c.methods.mapM fun m =>
      ((methodText m).mapError (PrintError.within (concat ["method ", m.title]))).map ((10 : UInt8) :: ·)) =
      .ok (c.methods.map fun m => 10 :: (methodLines m).flatMap PrintedLine.text) := by
    refine mapM_eq_ok fun m hm => ?_
    rw [methodText_eq (h m hm).1 (h m hm).2]
    rfl
  have hclass : ("class " : Text) = ("class" : Text) ++ [32] := by decide
  have hnewline : ("\n" : Text) = [10] := by decide
  rw [classText, hmethods, classLine, PrintedLine.text_margin]
  simp only [bind, Except.bind, pure, Except.pure, concat, hclass, hnewline]
  split <;> simp [List.flatMap_def]

end Assembly

end CoordSplit
