import CoordSplit.Proofs.AssemblyReading
import CoordSplit.Proofs.FloatTexts
import CoordSplit.Proofs.QuotedText

/-!
# Lines of a method body are read back

Each line that is printed for a spelled method body is read as the item it was printed for: `bodyItem_insn` for
instructions, by the kind of their operands, `bodyItem_variable`, `bodyItem_handler` and `bodyItem_limits` for the
tables. All the words of these lines are words (`isWord_of_mem_operandWords`).
-/

set_option autoImplicit false

namespace CoordSplit.Assembly

open Text

/-! ## Words -/

variable {w v t : Text} {b : UInt8} {op : Opcode} {m : Member} {x : Insn}

theorem IsWord.ne_nil (h : IsWord w) : w ≠ [] := by
  rintro rfl
  have hend := h 10 [] (by decide)
  simp [lex] at hend

/-- Graphic bytes are a word. -/
theorem isWord_of_graphic (hne : w ≠ []) (h : ∀ b ∈ w, Text.IsGraphic b) : IsWord w := by
  cases w with
  | nil => exact absurd rfl hne
  | cons b w =>
    obtain ⟨-, hquote, hslash, hcomment⟩ := h b (by simp)
    refine isWord_of_forall ⟨hquote, hslash, hcomment⟩ fun c hc => ?_
    have hc := (h c hc).1
    simp only [isBreak, isBlank, Bool.or_eq_false_iff, decide_eq_false_iff_not, ← UInt8.toNat_inj, UInt8.reduceToNat]
    omega

theorem isWord_of_isPlainWord (h : isPlainWord w = true) : IsWord w :=
  isWord_of_graphic (isPlainWord_iff.mp h).1 (isPlainWord_iff.mp h).2

theorem isWord_suffix (hw : ∀ c ∈ w, Text.IsGraphic c) (hb : Text.IsGraphic b)
    (hv : ∀ c ∈ v, Text.IsGraphic c) : IsWord (w ++ b :: v) := by
  refine isWord_of_graphic (by simp) fun c hc => ?_
  rcases List.mem_append.mp hc with hc | hc
  · exact hw c hc
  · rcases List.mem_cons.mp hc with rfl | hc
    · exact hb
    · exact hv c hc

theorem isWord_ofInt (i : Int) : IsWord (ofInt i) :=
  isWord_of_graphic (ofInt_ne_nil i) fun _ hb => isGraphic_of_mem_ofInt hb

theorem sound_bare {read : Text} (h : LexState.Sound (.quoted read) t) (hv : ∀ b ∈ v, Text.IsBare b) :
    LexState.Sound (.quoted (v.reverse ++ read)) t := by
  induction v generalizing read with
  | nil => exact h
  | cons b v ih =>
    obtain ⟨hquote, hend, hslash⟩ := hv b (by simp)
    have hnext := LexState.Sound.quoted_next (t := t) h hquote hend hslash
    simpa using ih hnext fun c hc => hv c (by simp [hc])

/-- A quoted piece leaves the reader between the quotes. -/
theorem sound_quotePiece {p : Text.Piece} (hp : p.Proper) {read : Text} (h : LexState.Sound (.quoted read) t) :
    LexState.Sound (.quoted ((quotePiece p).reverse ++ read)) t := by
  rcases quotePiece_shape hp with ⟨-, hbare⟩ | ⟨c, rest, heq, hbare⟩
  · exact sound_bare h hbare
  · have hescape : LexState.Sound (.quoted (c :: 92 :: read)) t :=
      LexState.Sound.escape_next (LexState.Sound.escape_first h)
    rw [heq]
    simpa using sound_bare hescape hbare

/-- Quoted text is a word. -/
theorem isWord_quote (s : Text) : IsWord (quote s) := by
  have hpieces : ∀ ps : List Text.Piece, (∀ p ∈ ps, p.Proper) → ∀ read, LexState.Sound (.quoted read) [] →
      LexState.Sound (.quoted ((ps.flatMap quotePiece).reverse ++ read)) [] := by
    intro ps hps
    induction ps with
    | nil => exact fun read h => h
    | cons p ps ih =>
      intro read h
      have hrest := ih (fun q hq => hps q (by simp [hq])) _ (sound_quotePiece (hps p (by simp)) h)
      simpa using hrest
  have hword := isWord_of_quoted
    (hpieces (pieces s) proper_of_mem_pieces [34] .quoted_first)
  simpa [quote] using hword

/-- The words that start lines of other kinds. -/
def keywords : List Text := ["class", "method", "end", "maxs", "local", "catch"]

theorem isWord_keyword (h : w ∈ keywords) : IsWord w := by
  have hall : keywords.all isPlainWord = true := by decide
  exact isWord_of_isPlainWord (List.all_eq_true.mp hall w h)

/-- The name of an opcode is a word of its own. -/
theorem opcodeName_spec (h : op ∈ Opcode.named) :
    IsWord op.name ∧ op.name ∉ keywords ∧ endsWith op.name ":" = false := by
  have hall : ∀ op ∈ Opcode.named, isPlainWord op.name = true ∧ op.name ∉ keywords ∧
      endsWith op.name ":" = false := by decide +kernel
  obtain ⟨hword, hrest⟩ := hall op h
  exact ⟨isWord_of_isPlainWord hword, hrest⟩

/-! ## Numbers -/

theorem integer_ofInt {i : Int} (h : IsInteger i) : integer (ofInt i) = .ok i := by
  unfold integer
  rw [intValue_ofInt (by omega) h.1 h.2 .detect (.inr rfl)]

theorem isInteger_toInt (v : Int32) : IsInteger v.toInt := ⟨v.le_toInt, v.toInt_lt⟩

/-! ## Constants -/

theorem head_graphic (hne : w ≠ []) (h : ∀ b ∈ w, Text.IsGraphic b) : (w ++ v).head? ≠ some 34 := by
  cases w with
  | nil => exact absurd rfl hne
  | cons b w =>
    have hb := (h b (by simp)).2.1
    simpa using hb

/-- A number with a letter behind it has the type of the letter. -/
theorem constant_suffix (hne : w ≠ []) (h : ∀ b ∈ w, Text.IsGraphic b)
    (hb : lowerByte b = 108 ∨ lowerByte b = 102 ∨ lowerByte b = 100) :
    constant (w ++ [b]) =
      if lowerByte b = 108 then
        match intValue .detect 64 w with
        | .ok v => .ok (.long (Int64.ofInt v))
        | .error _ => .error (.badLong (w ++ [b]))
      else if lowerByte b = 102 then
        floatConstant .single (w ++ [b]) w .badFloat >>= fun bits => .ok (.float (UInt32.ofNat bits))
      else floatConstant .double (w ++ [b]) w .badDouble >>= fun bits => .ok (.double (UInt64.ofNat bits)) := by
  have hlength : 1 < (w ++ [b]).length := by
    have hpos := List.length_pos_iff.mpr hne
    simpa using hpos
  have hlast : (w ++ [b]).getLast?.map lowerByte = some (lowerByte b) := by simp
  unfold constant
  dsimp only
  rw [if_neg (head_graphic hne h), hlast, List.dropLast_concat]
  simp only [hlength, true_and, Option.some.injEq]
  rcases hb with hb | hb | hb
  · rw [if_pos hb, if_pos hb]
    rfl
  · rw [if_neg (by rw [hb]; decide), if_pos hb, if_neg (by rw [hb]; decide), if_pos hb]
    rfl
  · rw [if_neg (by rw [hb]; decide), if_neg (by rw [hb]; decide), if_pos hb, if_neg (by rw [hb]; decide),
      if_neg (by rw [hb]; decide)]
    rfl

theorem constant_long (v : Int64) : constant (ofInt v.toInt ++ [76]) = .ok (.long v) := by
  rw [constant_suffix (ofInt_ne_nil _) (fun _ hb => isGraphic_of_mem_ofInt hb) (.inl (by decide)),
    if_pos (by decide), intValue_ofInt (by omega) v.le_toInt v.toInt_lt .detect (.inr rfl)]
  dsimp only
  rw [Int64.ofInt_toInt]

theorem floatConstant_render {form : BinaryFormat} (hform : form = .single ∨ form = .double) {n : Nat}
    (h : form.read? t = some n) (bad : Text → LineError) : floatConstant form w (form.render n) bad = .ok n := by
  unfold floatConstant
  rw [BinaryFormat.read?_render hform h]

theorem constant_float {bits : UInt32} (h : Constant.Spelled (.float bits)) :
    IsWord (BinaryFormat.single.render bits.toNat ++ [70]) ∧
      constant (BinaryFormat.single.render bits.toNat ++ [70]) = .ok (.float bits) := by
  obtain ⟨t, n, hread, rfl⟩ := h
  have hn : (UInt32.ofNat n).toNat = n := UInt32.toNat_ofNat_of_lt (BinaryFormat.lt_of_read? (.inl rfl) hread)
  obtain ⟨hne, hgraphic⟩ := BinaryFormat.isGraphic_render (.inl rfl) hread
  rw [hn]
  refine ⟨isWord_suffix hgraphic (by decide) (by simp), ?_⟩
  rw [constant_suffix hne hgraphic (.inr (.inl (by decide))), if_neg (by decide), if_pos (by decide),
    floatConstant_render (.inl rfl) hread]
  rfl

theorem constant_double {bits : UInt64} (h : Constant.Spelled (.double bits)) :
    IsWord (BinaryFormat.double.render bits.toNat ++ [68]) ∧
      constant (BinaryFormat.double.render bits.toNat ++ [68]) = .ok (.double bits) := by
  obtain ⟨t, n, hread, rfl⟩ := h
  have hn : (UInt64.ofNat n).toNat = n := UInt64.toNat_ofNat_of_lt (BinaryFormat.lt_of_read? (.inr rfl) hread)
  obtain ⟨hne, hgraphic⟩ := BinaryFormat.isGraphic_render (.inr rfl) hread
  rw [hn]
  refine ⟨isWord_suffix hgraphic (by decide) (by simp), ?_⟩
  rw [constant_suffix hne hgraphic (.inr (.inr (by decide))), if_neg (by decide), if_neg (by decide),
    floatConstant_render (.inr rfl) hread]
  rfl

/-- A numeral has no letters and no punctuation but its sign. -/
theorem ofInt_ne {i : Int} {c : UInt8} (h : b ∈ ofInt i) (hc : isDigit c = false ∧ c ≠ 45) :
    lowerByte b = b ∧ b ≠ c := by
  have hdigit : ∀ n, b ∈ ofNat n → lowerByte b = b ∧ b ≠ c := by
    intro n hb
    have hb := BinaryFormat.isDigit_of_mem_ofNat hb
    exact ⟨BinaryFormat.lowerByte_of_isDigit hb, BinaryFormat.ne_of_isDigit hb hc.1⟩
  unfold ofInt at h
  split at h
  · rcases List.mem_cons.mp h with rfl | h
    · exact ⟨by decide, hc.2.symm⟩
    · exact hdigit _ h
  · exact hdigit _ h

/-- An int is read back. -/
theorem constant_int (v : Int32) : constant (ofInt v.toInt) = .ok (.int v) := by
  have hgraphic : ∀ b ∈ ofInt v.toInt, Text.IsGraphic b := fun _ hb => isGraphic_of_mem_ofInt hb
  have hhead := head_graphic (v := []) (ofInt_ne_nil v.toInt) hgraphic
  rw [List.append_nil] at hhead
  have hlast : ∀ c, isDigit c = false ∧ c ≠ 45 → (ofInt v.toInt).getLast?.map lowerByte ≠ some c := by
    intro c hc heq
    obtain ⟨b, hb, hlower⟩ := Option.map_eq_some_iff.mp heq
    obtain ⟨hsame, hne⟩ := ofInt_ne (List.mem_of_getLast? hb) hc
    exact hne (hsame.symm.trans hlower)
  have hpoint : (ofInt v.toInt).any (fun b => b = 46 || b = 101 || b = 69) = false := by
    rw [List.any_eq_false]
    intro b hb
    have hne : ∀ c, isDigit c = false ∧ c ≠ 45 → b ≠ c := fun c hc => (ofInt_ne hb hc).2
    simp [hne 46 (by decide), hne 101 (by decide), hne 69 (by decide)]
  unfold constant
  dsimp only
  rw [if_neg hhead, if_neg fun h => hlast _ (by decide) h.2, if_neg fun h => hlast _ (by decide) h.2,
    if_neg fun h => hlast _ (by decide) h.2, hpoint, Bool.false_and, if_neg (by simp),
    intValue_ofInt (by omega) v.le_toInt v.toInt_lt .detect (.inr rfl)]
  dsimp only
  rw [Int32.ofInt_toInt]
  rfl

theorem constant_string (s : Text) : constant (quote s) = .ok (.string s) := by
  have hhead : (quote s).head? = some 34 := rfl
  unfold constant
  dsimp only
  rw [if_pos hhead, unquote_quote]
  rfl

/-- The words of a constant are words, and are read as it. -/
theorem constantItem_words {c : Constant} (h : c.Spelled) :
    (∀ w ∈ constantWords c, IsWord w) ∧ constantItem (constantWords c) = .ok (.insn (.ldc c)) := by
  have hread : ∀ w, IsWord w → constant w = .ok c →
      (∀ v ∈ [w], IsWord v) ∧ constantItem [w] = .ok (.insn (.ldc c)) := by
    intro w hw hc
    refine ⟨by simpa using hw, ?_⟩
    unfold constantItem
    dsimp only
    rw [hc]
    rfl
  cases c with
  | int v => exact hread _ (isWord_ofInt _) (constant_int v)
  | long v =>
    exact hread _ (isWord_suffix (fun _ hb => isGraphic_of_mem_ofInt hb) (by decide)
      (by simp)) (constant_long v)
  | float bits => exact hread _ (constant_float h).1 (constant_float h).2
  | double bits => exact hread _ (constant_double h).1 (constant_double h).2
  | string s => exact hread _ (isWord_quote s) (constant_string s)
  | type t =>
    obtain ⟨name, hname, rfl⟩ := h
    rw [constantWords, ValueType.display_ofClassName]
    refine ⟨?_, rfl⟩
    simp only [List.mem_cons, List.not_mem_nil, or_false, forall_eq_or_imp, forall_eq]
    exact ⟨isWord_keyword (by decide), hname⟩
  | truth b => exact h.elim

/-! ## Instructions -/

/-- The item that the line of an instruction is read as, where `name` gives the names of labels. -/
def itemOf (name : InsnId → Text) (p : InsnId × Insn) : Item :=
  match p.2 with
  | .label => .label (name p.1)
  | .jump op target => .jump op (name target)
  | .switch op keys otherwise targets => .switch op keys (name otherwise) (targets.map name)
  | x => .insn x

theorem arrayElementName_spec {name : Text} {v : Int32} (h : arrayElementCode? name = some v) :
    IsWord ((arrayElementName? v).getD []) ∧ arrayElementCode? ((arrayElementName? v).getD []) = some v := by
  have hall : ∀ e ∈ arrayElements, isPlainWord ((arrayElementName? e.1).getD []) = true ∧
      arrayElementCode? ((arrayElementName? e.1).getD []) = some e.1 := by decide
  obtain ⟨e, he, rfl⟩ := Option.map_eq_some_iff.mp h
  obtain ⟨hword, hcode⟩ := hall e (List.mem_of_find?_eq_some he)
  exact ⟨isWord_of_isPlainWord hword, hcode⟩

theorem member_key (h : m.Spelled) : member (m.owner ++ 35 :: m.name) = .ok (m.owner, m.name) := by
  unfold member
  rw [cut_eq_some_iff.mpr ⟨h.owner.2, rfl⟩]
  simp [h.owner.1, h.name]

theorem tableKeys_head {least : Int} (h : IsInteger least) (n : Nat) :
    IsInteger (((tableKeys least n).head?.map Int32.toInt).getD 0) ∧
      tableKeys (((tableKeys least n).head?.map Int32.toInt).getD 0) n = tableKeys least n := by
  cases n with
  | zero => exact ⟨⟨by simp [tableKeys], by simp [tableKeys]⟩, rfl⟩
  | succ n =>
    have hhead : (((tableKeys least (n + 1)).head?.map Int32.toInt).getD 0) = least := by
      exact Int32.toInt_ofInt_of_le h.1 h.2
    rw [hhead]
    exact ⟨h, rfl⟩

theorem lookupCase_eq (k : Int32) (label : Text) : lookupCase (ofInt k.toInt ++ 58 :: label) = .ok (k, label) := by
  have hcolon : (58 : UInt8) ∉ ofInt k.toInt := fun hmem => (ofInt_ne hmem (by decide)).2 rfl
  unfold lookupCase
  rw [cut_eq_some_iff.mpr ⟨hcolon, rfl⟩]
  dsimp only
  rw [integer_ofInt (isInteger_toInt k)]
  exact congrArg (fun k => Except.ok (k, label)) (Int32.ofInt_toInt k)

/-- A switch is read back. -/
theorem switchItem_words {keys : List Int32} {targets : List InsnId} (name : InsnId → Text)
    (otherwise : InsnId) (h : SwitchKeys op keys targets.length) :
    switchItem op (operandWords name (.switch op keys otherwise targets)) =
      .ok (.switch op keys (name otherwise) (targets.map name)) := by
  rcases h with ⟨rfl, least, hleast, rfl⟩ | ⟨rfl, hlength⟩
  · obtain ⟨hinteger, hkeys⟩ := tableKeys_head hleast targets.length
    rw [operandWords, if_pos rfl]
    unfold switchItem
    rw [if_pos rfl]
    dsimp only
    rw [integer_ofInt hinteger, List.length_map]
    exact congrArg (fun keys => Except.ok (Item.switch .tableswitch keys (name otherwise) (targets.map name))) hkeys
  · rw [operandWords, if_neg (by decide)]
    unfold switchItem
    rw [if_neg (by decide)]
    dsimp only
    have hcases : ((keys.zip targets).map fun p => ofInt p.1.toInt ++ 58 :: name p.2).mapM lookupCase =
        .ok ((keys.zip targets).map fun p => (p.1, name p.2)) := by
      rw [mapM_ok_iff, List.forall₂_map_left_iff, List.forall₂_map_right_iff, List.forall₂_same]
      exact fun p _ => lookupCase_eq p.1 (name p.2)
    have hkeys : ((keys.zip targets).map fun p => (p.1, name p.2)).map Prod.fst = keys := by
      rw [List.map_map]
      exact List.map_fst_zip hlength.le
    have htargets : ((keys.zip targets).map fun p => (p.1, name p.2)).map Prod.snd = targets.map name := by
      rw [List.map_map, ← List.map_snd_zip hlength.ge, List.map_map, List.map_snd_zip hlength.ge]
      rfl
    rw [hcases]
    change Except.ok _ = _
    rw [hkeys, htargets]

/-- A call is read by its member and its type; the mark of an interface stands in front. -/
theorem callItem_eq (op : Opcode) (itf : Bool) (target desc : Text) :
    callItem op ((if itf then [("itf" : Text)] else []) ++ [target, desc]) =
      ((if op = .invokedynamic && !target.contains 35 then pure ([], target) else member target) >>= fun p =>
        match MethodType.parse desc with
        | .error e => .error (.descriptor "method type" e)
        | .ok _ => .ok (.insn (.call op ⟨p.1, p.2, desc⟩ (itf || op = .invokeinterface)))) := by
  cases itf
  all_goals
    change (if (decide (op = .invokedynamic) && !target.contains 35) = true then _ else _) = _
    by_cases hdynamic : (decide (op = .invokedynamic) && !target.contains 35) = true
    · rw [if_pos hdynamic, if_pos hdynamic]
      rfl
    · rw [if_neg hdynamic, if_neg hdynamic]
      rfl

/-- A call is read back. -/
theorem callItem_words {itf : Bool} (hm : m.Spelled ∨ op = .invokedynamic ∧ m.owner = [] ∧ IsWord m.name ∧ 35 ∉ m.name)
    (htype : ∃ t, MethodType.parse m.desc = .ok t) (hitf : op = .invokeinterface → itf = true) (name : InsnId → Text) :
    callItem op (operandWords name (.call op m itf)) = .ok (.insn (.call op m itf)) := by
  obtain ⟨t, ht⟩ := htype
  rw [operandWords]
  generalize htarget : (if m.owner.isEmpty then m.name else m.owner ++ 35 :: m.name) = target
  have hmember : (if op = .invokedynamic && !target.contains 35 then pure ([], target) else member target) =
      Except.ok (m.owner, m.name) := by
    rcases hm with hm | ⟨rfl, howner, -, hsharp⟩
    · rw [if_neg (by simpa using hm.owner.1)] at htarget
      rw [← htarget, if_neg (by simp), member_key hm]
    · rw [if_pos (by simp [howner])] at htarget
      rw [← htarget, if_pos (by simpa using hsharp), howner]
      rfl
  have hmark : (itf && decide (op ≠ .invokeinterface) || decide (op = .invokeinterface)) = itf := by
    by_cases hop : op = .invokeinterface
    · simp [hop, hitf hop]
    · simp [hop]
  rw [callItem_eq, hmember]
  simp only [bind, Except.bind, ht, hmark]

theorem fieldItem_words (hm : m.Spelled) (htype : ∃ t, ValueType.parse m.desc = .ok t)
    (name : InsnId → Text) : fieldItem op (operandWords name (.field op m)) = .ok (.insn (.field op m)) := by
  obtain ⟨t, ht⟩ := htype
  rw [operandWords]
  unfold fieldItem
  dsimp only
  rw [member_key hm]
  simp only [bind, Except.bind, ht]
  rfl

theorem not_isBranch_of_plainEffect {e : StackEffect} (h : op.plainEffect? = some e) : op.isBranch = false := by
  cases op <;> first | rfl | cases h

/-- The words of the operands of an instruction are read as the instruction. -/
theorem insnItem_words (h : x.Spelled) (hlabel : x.isLabel = false) (name : InsnId → Text) (id : InsnId) :
    insnItem x.opcode (operandWords name x) = .ok (itemOf name (id, x)) := by
  cases h with
  | plain heffect =>
    obtain ⟨-, hkind⟩ := Opcode.target_of_plainEffect heffect
    rw [Insn.opcode, insnItem_plain ⟨hkind, not_isBranch_of_plainEffect heffect⟩, Insn.effect, heffect]
    rfl
  | @push op hop v =>
    have hne : op ≠ .newarray := by
      rcases hop with rfl | rfl <;> decide
    rw [Insn.opcode, insnItem_push hop, operandWords, if_neg hne]
    dsimp only
    rw [integer_ofInt (isInteger_toInt v)]
    change Except.ok (Item.insn (.push op (Int32.ofInt v.toInt))) = _
    rw [Int32.ofInt_toInt]
    rfl
  | newarray hname =>
    rw [Insn.opcode, insnItem_newarray, operandWords, if_pos rfl]
    dsimp only
    rw [(arrayElementName_spec hname).2]
    rfl
  | ldc hc => exact (constantItem_words hc).2
  | var hop hslot =>
    rw [Insn.opcode, insnItem_slot hop, operandWords]
    dsimp only
    rw [integer_ofInt hslot]
    rfl
  | iinc hslot delta =>
    rw [Insn.opcode, insnItem_iinc, operandWords]
    dsimp only
    rw [integer_ofInt hslot, integer_ofInt (isInteger_toInt delta)]
    change Except.ok (Item.insn (.iinc _ (Int32.ofInt delta.toInt))) = _
    rw [Int32.ofInt_toInt]
    rfl
  | jump hop target =>
    rw [Insn.opcode, insnItem_branch hop, operandWords]
    rfl
  | switch otherwise hkeys =>
    have hop : ∀ {op : Opcode} {keys : List Int32} {n : Nat}, SwitchKeys op keys n → op.operandKind = .cases := by
      rintro op keys n (⟨rfl, -⟩ | ⟨rfl, -⟩) <;> rfl
    rw [Insn.opcode, insnItem_cases (hop hkeys)]
    exact switchItem_words name otherwise hkeys
  | field hop hm hdesc htype =>
    rw [Insn.opcode, insnItem_field hop]
    exact fieldItem_words hm htype name
  | call hop hm hdesc htype hitf =>
    rw [Insn.opcode, insnItem_call hop]
    exact callItem_words hm htype hitf name
  | type hop hname =>
    rw [Insn.opcode, insnItem_type hop, operandWords]
    rfl
  | multiArray hdesc hdims =>
    rw [Insn.opcode, insnItem_multianewarray, operandWords]
    dsimp only
    rw [integer_ofInt hdims]
    rfl
  | label => cases hlabel

/-- The words of the operands of an instruction are words. -/
theorem isWord_of_mem_operandWords (h : x.Spelled) {name : InsnId → Text}
    (hname : ∀ id, name id ≠ [] ∧ ∀ b ∈ name id, Text.IsGraphic b) (hw : w ∈ operandWords name x) : IsWord w := by
  have hlabel : ∀ id, IsWord (name id) := fun id => isWord_of_graphic (hname id).1 (hname id).2
  cases h with
  | plain heffect | label => simp [operandWords] at hw
  | @push op hop v =>
    have hne : op ≠ .newarray := by
      rcases hop with rfl | rfl <;> decide
    rw [operandWords, if_neg hne, List.mem_singleton] at hw
    rw [hw]
    exact isWord_ofInt _
  | newarray hcode =>
    rw [operandWords, if_pos rfl, List.mem_singleton] at hw
    rw [hw]
    exact (arrayElementName_spec hcode).1
  | ldc hc => exact (constantItem_words hc).1 w hw
  | var hop hslot =>
    rw [List.mem_singleton.mp hw]
    exact isWord_ofInt _
  | iinc hslot delta =>
    simp only [operandWords, List.mem_cons, List.not_mem_nil, or_false] at hw
    rcases hw with rfl | rfl
    · exact isWord_ofInt _
    · exact isWord_ofInt _
  | jump hop target =>
    rw [List.mem_singleton.mp hw]
    exact hlabel target
  | switch otherwise hkeys =>
    rw [operandWords] at hw
    split at hw
    · simp only [List.mem_cons, List.mem_map] at hw
      rcases hw with rfl | rfl | ⟨t, -, rfl⟩
      · exact isWord_ofInt _
      · exact hlabel otherwise
      · exact hlabel t
    · simp only [List.mem_cons, List.mem_map] at hw
      rcases hw with rfl | ⟨p, -, rfl⟩
      · exact hlabel otherwise
      · exact isWord_suffix (fun b hb => isGraphic_of_mem_ofInt hb) (by decide)
          (hname p.2).2
  | field hop hm hdesc htype =>
    simp only [operandWords, List.mem_cons, List.not_mem_nil, or_false] at hw
    rcases hw with rfl | rfl
    · exact hm.word
    · exact hdesc
  | call hop hm hdesc htype hitf =>
    have hitfWord : IsWord ("itf" : Text) := isWord_of_isPlainWord (by decide)
    simp only [operandWords, List.mem_append, List.mem_cons, List.not_mem_nil, or_false] at hw
    rcases hw with hw | rfl | rfl
    · split at hw
      · rw [List.mem_singleton.mp hw]
        exact hitfWord
      · simp at hw
    · rcases hm with hm | ⟨-, howner, hmember, -⟩
      · rw [if_neg (by simpa using hm.owner.1)]
        exact hm.word
      · rw [if_pos (by simp [howner])]
        exact hmember
    · exact hdesc
  | type hop hname =>
    rw [List.mem_singleton.mp hw]
    exact hname
  | multiArray hdesc hdims =>
    simp only [operandWords, List.mem_cons, List.not_mem_nil, or_false] at hw
    rcases hw with rfl | rfl
    · exact hdesc
    · exact isWord_ofInt _

/-! ## Lines -/

/-- The line of an instruction is read as the instruction. -/
theorem bodyItem_insn (h : x.Spelled) (hlabel : x.isLabel = false) (name : InsnId → Text) (id : InsnId) :
    bodyItem x.opcode.name (operandWords name x) = .ok (itemOf name (id, x)) := by
  have hformed := h.formed
  obtain ⟨-, hkeyword, hcolon⟩ := opcodeName_spec hformed.named
  have hmark : x.opcode ≠ .label := by
    intro hop
    have hkind := hformed.kind
    rw [hop] at hkind
    cases x with
    | label => cases hlabel
    | _ => cases hkind
  simp only [keywords, List.mem_cons, List.not_mem_nil, or_false, not_or] at hkeyword
  unfold bodyItem
  rw [if_neg hkeyword.2.2.2.1, if_neg hkeyword.2.2.2.2.1, if_neg hkeyword.2.2.2.2.2, if_neg (by simp [hcolon]),
    Opcode.ofName?_name hformed.named]
  dsimp only
  rw [if_neg hmark]
  exact insnItem_words h hlabel name id

theorem isGraphic_labelText (c : Code) (id : InsnId) :
    c.labelText id ≠ [] ∧ ∀ b ∈ c.labelText id, Text.IsGraphic b := by
  unfold Code.labelText
  refine ⟨by simp, fun b hb => ?_⟩
  rcases List.mem_cons.mp hb with rfl | hb
  · decide
  · exact isGraphic_of_mem_ofNat hb

theorem labelLine_notMem (c : Code) (id : InsnId) : c.labelText id ++ [58] ∉ keywords := by
  have hall : ∀ w ∈ keywords, w.head? ≠ some 76 := by decide
  intro hmem
  exact hall _ hmem rfl

/-- The line of a label is read as the label. -/
theorem bodyItem_label (c : Code) (id : InsnId) :
    bodyItem (c.labelText id ++ [58]) [] = .ok (.label (c.labelText id)) := by
  have hkeyword := labelLine_notMem c id
  have hcolon : endsWith (c.labelText id ++ [58]) ":" = true := by
    unfold endsWith
    rw [List.isSuffixOf_iff_suffix]
    exact List.suffix_append _ _
  simp only [keywords, List.mem_cons, List.not_mem_nil, or_false, not_or] at hkeyword
  unfold bodyItem
  rw [if_neg hkeyword.2.2.2.1, if_neg hkeyword.2.2.2.2.1, if_neg hkeyword.2.2.2.2.2, if_pos ⟨rfl, hcolon⟩,
    List.dropLast_concat]

/-- The item of the line of a variable. -/
def variableOf (c : Code) (v : LocalVar) : Item :=
  .variable ⟨v.name, v.desc, v.signature, v.slot, 0, 0⟩ (c.labelText v.start) (c.labelText v.stop)

/-- The line of a variable is read back. -/
theorem bodyItem_variable (c : Code) {v : LocalVar} (h : v.Spelled) :
    bodyItem (variableLine c v).word (variableLine c v).args = .ok (variableOf c v) := by
  obtain ⟨t, ht⟩ := h.type
  have hsignature : (if v.signature.isEmpty then [] else [v.signature] : List Text).length ≤ 1 ∧
      (if v.signature.isEmpty then [] else [v.signature] : List Text).headD [] = v.signature := by
    split
    · next hempty => exact ⟨by simp, (List.isEmpty_iff.mp hempty).symm⟩
    · exact ⟨by simp, rfl⟩
  unfold variableLine bodyItem
  dsimp only
  rw [if_neg (by decide), if_pos rfl]
  unfold variableItem
  simp only [List.cons_append, List.nil_append]
  rw [if_neg (by omega), integer_ofInt h.slot]
  simp only [bind, Except.bind, ht, hsignature.2]
  rfl

/-- The item of the line of a handler. -/
def handlerOf (c : Code) (h : Handler) : Item :=
  .handler h.type (c.labelText h.start) (c.labelText h.stop) (c.labelText h.handler)

theorem bodyItem_handler (c : Code) {h : Handler} (hh : Handler.Spelled h.type) :
    bodyItem (handlerLine c h).word (handlerLine c h).args = .ok (handlerOf c h) := by
  unfold handlerLine bodyItem
  dsimp only
  rw [if_neg (by decide), if_neg (by decide), if_pos rfl]
  unfold handlerItem handlerOf
  dsimp only
  rcases hh with hempty | ⟨hword, hany⟩
  · simp [hempty]
  · have hne : h.type.isEmpty = false := by simpa using hword.ne_nil
    simp [hne, hany]

theorem bodyItem_limits {s l : Int} (hs : IsInteger s) (hl : IsInteger l) :
    bodyItem "maxs" [ofInt s, ofInt l] = .ok (.limits s l) := by
  unfold bodyItem
  rw [if_pos rfl]
  unfold limitsItem
  dsimp only
  rw [integer_ofInt hs, integer_ofInt hl]
  rfl

/-! ## Bodies -/

/-- A line of words is read as an item of a method body. -/
structure ReadsAs (l : PrintedLine) (item : Item) : Prop where
  legible : l.Legible
  inside : l.word ≠ ("class" : Text) ∧ l.word ≠ ("method" : Text) ∧ l.word ≠ ("end" : Text)
  item : bodyItem l.word l.args = .ok item

/-- The items of a method body, in the order of its lines. -/
def bodyItems (m : Method) : List Item :=
  (if m.maxStack = 0 ∧ m.maxLocals = 0 then [] else [.limits m.maxStack m.maxLocals]) ++
    m.code.listing.map (itemOf m.code.labelText) ++ m.locals.map (variableOf m.code) ++ m.handlers.map (handlerOf m.code)

theorem inside_of_notMem (h : w ∉ keywords) : w ≠ ("class" : Text) ∧ w ≠ ("method" : Text) ∧ w ≠ ("end" : Text) := by
  simp only [keywords, List.mem_cons, not_or] at h
  exact ⟨h.1, h.2.1, h.2.2.1⟩

theorem inside_of_table (h : w ∈ [("maxs" : Text), ("local" : Text), ("catch" : Text)]) :
    w ≠ ("class" : Text) ∧ w ≠ ("method" : Text) ∧ w ≠ ("end" : Text) := by
  have hall : ∀ w ∈ [("maxs" : Text), ("local" : Text), ("catch" : Text)],
      w ≠ ("class" : Text) ∧ w ≠ ("method" : Text) ∧ w ≠ ("end" : Text) := by decide
  exact hall w h

theorem isWord_labelText (c : Code) (id : InsnId) : IsWord (c.labelText id) :=
  isWord_of_graphic (isGraphic_labelText c id).1 (isGraphic_labelText c id).2

/-- The line of an instruction is read as its item. -/
theorem insnLine_reads (c : Code) {p : InsnId × Insn} (h : p.2.Spelled) :
    ReadsAs (insnLine c p) (itemOf c.labelText p) := by
  obtain ⟨id, x⟩ := p
  unfold insnLine
  by_cases hlabel : x.isLabel = true
  · obtain rfl := Insn.eq_label_of_isLabel hlabel
    refine ⟨?_, inside_of_notMem (labelLine_notMem c id), bodyItem_label c id⟩
    intro w hw
    rw [List.mem_singleton.mp hw]
    exact isWord_suffix (isGraphic_labelText c id).2 (by decide) (by simp)
  · rw [if_neg hlabel]
    obtain ⟨hword, hkeyword, -⟩ := opcodeName_spec h.formed.named
    refine ⟨?_, inside_of_notMem hkeyword, bodyItem_insn h (by simpa using hlabel) c.labelText id⟩
    intro w hw
    rcases List.mem_cons.mp hw with rfl | hw
    · exact hword
    · exact isWord_of_mem_operandWords h (isGraphic_labelText c) hw

/-- The line of a variable is read as its item. -/
theorem variableLine_reads (c : Code) {v : LocalVar} (h : v.Spelled) : ReadsAs (variableLine c v) (variableOf c v) := by
  refine ⟨?_, inside_of_table (by simp [variableLine]), bodyItem_variable c h⟩
  intro w hw
  simp only [variableLine, List.mem_cons, List.mem_append, List.not_mem_nil, or_false] at hw
  rcases hw with rfl | (rfl | rfl | rfl | rfl | rfl) | hw
  · exact isWord_keyword (by decide)
  · exact h.name
  · exact h.desc
  · exact isWord_ofInt _
  · exact isWord_labelText c _
  · exact isWord_labelText c _
  · split at hw
    · simp at hw
    · next hne =>
      rw [List.mem_singleton.mp hw]
      exact h.signature.resolve_left (by simpa using hne)

/-- The line of a handler is read back. -/
theorem handlerLine_reads (c : Code) {h : Handler} (hh : Handler.Spelled h.type) :
    ReadsAs (handlerLine c h) (handlerOf c h) := by
  have hany : IsWord ("any" : Text) := isWord_of_isPlainWord (by decide)
  refine ⟨?_, inside_of_table (by simp [handlerLine]), bodyItem_handler c hh⟩
  intro w hw
  simp only [handlerLine, List.mem_cons, List.not_mem_nil, or_false] at hw
  rcases hw with rfl | rfl | rfl | rfl | rfl
  · exact isWord_keyword (by decide)
  · split
    · exact hany
    · next hne => exact (hh.resolve_left (by simpa using hne)).1
  · exact isWord_labelText c _
  · exact isWord_labelText c _
  · exact isWord_labelText c _

/-- The lines of a spelled body are read as its items. -/
theorem bodyLines_reads {m : Method} (h : m.Spelled) : List.Forall₂ ReadsAs (bodyLines m) (bodyItems m) := by
  have hlimits : List.Forall₂ ReadsAs (limitLines m)
      (if m.maxStack = 0 ∧ m.maxLocals = 0 then [] else [.limits m.maxStack m.maxLocals]) := by
    unfold limitLines
    split
    · exact .nil
    · refine .cons ⟨?_, inside_of_table (by simp), bodyItem_limits h.limits.1 h.limits.2⟩ .nil
      intro w hw
      simp only [List.mem_cons, List.not_mem_nil, or_false] at hw
      rcases hw with rfl | rfl | rfl
      · exact isWord_keyword (by decide)
      · exact isWord_ofInt _
      · exact isWord_ofInt _
  have hmap : ∀ {α : Type} (xs : List α) (f : α → PrintedLine) (g : α → Item), (∀ x ∈ xs, ReadsAs (f x) (g x)) →
      List.Forall₂ ReadsAs (xs.map f) (xs.map g) := by
    intro α xs f g hfg
    rw [List.forall₂_map_left_iff, List.forall₂_map_right_iff, List.forall₂_same]
    exact hfg
  unfold bodyLines bodyItems
  apply List.rel_append
  · apply List.rel_append
    · apply List.rel_append hlimits
      exact hmap _ _ _ fun p hp => insnLine_reads m.code (h.insns p hp)
    · exact hmap _ _ _ fun v hv => variableLine_reads m.code (h.locals v hv)
  · exact hmap _ _ _ fun x hx => handlerLine_reads m.code (h.handlers x hx)

end CoordSplit.Assembly
