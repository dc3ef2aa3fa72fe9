import CoordSplit.Descriptor.Basic

/-!
# Reading descriptors

`ValueType.read` reads one type from the start of a text and gives back what follows it;
`ValueType.parse` and `MethodType.parse` read a whole text.
-/

set_option autoImplicit false

namespace CoordSplit

/-- Why a text is not a descriptor. -/
inductive DescriptorError where
  | ended (desc : Text)
  | badObject (desc : Text) (pos : Nat)
  | voidElement (desc : Text)
  | unexpected (byte : UInt8) (desc : Text) (pos : Nat)
  | trailing (desc : Text) (pos : Nat)
  | notMethod (desc : Text)
  | voidArgument (desc : Text)
  | unterminated (desc : Text)
  deriving DecidableEq

namespace DescriptorError

/-- The wording of the cause. -/
def message : DescriptorError → Text
  | .ended d => "unexpected end of descriptor " ++ Text.quote d
  | .badObject d i => Text.concat ["bad object type in ", Text.quote d, " at ", Text.ofNat i]
  | .voidElement d => "void array element in " ++ Text.quote d
  | .unexpected b d i =>
    Text.concat ["unexpected ", Text.quoteByte b, " in descriptor ", Text.quote d, " at ",
      Text.ofNat i]
  | .trailing d i => Text.concat ["trailing data in descriptor ", Text.quote d, " at ", Text.ofNat i]
  | .notMethod d => "method descriptor expected: " ++ Text.quote d
  | .voidArgument d => "void argument in " ++ Text.quote d
  | .unterminated d => "unterminated arguments in " ++ Text.quote d

end DescriptorError

namespace ValueType

/-- Why no type can be read from the start of a text. The text left at the fault tells its place. -/
inductive ReadError where
  | ended
  | badObject (left : Text)
  | voidElement
  | unexpected (byte : UInt8) (left : Text)

/-- The fault of a whole descriptor, from a fault met while reading a part of it. -/
def ReadError.locate (desc : Text) : ReadError → DescriptorError
  | .ended => .ended desc
  | .badObject left => .badObject desc (desc.length - left.length)
  | .voidElement => .voidElement desc
  | .unexpected b left => .unexpected b desc (desc.length - left.length)

/-- The type written at the start of a text, and what follows it. -/
def read : Text → Except ReadError (ValueType × Text)
  | [] => .error .ended
  | c :: rest =>
    match Prim.ofLetter? c with
    | some p => .ok (.prim p, rest)
    | none =>
      if c = 76 then
        match Text.cut 59 rest with
        | some ([], _) => .error (.badObject (c :: rest))
        | some (name, tail) => .ok (.object name, tail)
        | none => .error (.badObject (c :: rest))
      else if c = 91 then
        match read rest with
        | .error e => .error e
        | .ok (elem, tail) =>
          if elem = .void then .error .voidElement else .ok (.array elem, tail)
      else .error (.unexpected c (c :: rest))

/-- Reading a type uses up at least one byte. -/
theorem read_length {t : Text} {v : ValueType} {tail : Text} (h : read t = .ok (v, tail)) :
    tail.length < t.length := by
  induction t generalizing v tail with
  | nil => simp [read] at h
  | cons c rest ih =>
    rw [read] at h
    split at h
    · simp only [Except.ok.injEq, Prod.mk.injEq] at h
      simp [h.2]
    · split at h
      · split at h
        · simp at h
        · rename_i hcut
          simp only [Except.ok.injEq, Prod.mk.injEq] at h
          have := Text.cut_length hcut
          simp only [List.length_cons, ← h.2]
          omega
        · simp at h
      · split at h
        · split at h
          · simp at h
          · rename_i hread
            split at h
            · simp at h
            · simp only [Except.ok.injEq, Prod.mk.injEq] at h
              have := ih hread
              simp only [List.length_cons, ← h.2]
              omega
        · simp at h

/-- The type that a whole text writes. -/
def parse (desc : Text) : Except DescriptorError ValueType :=
  match read desc with
  | .error e => .error (e.locate desc)
  | .ok (t, []) => .ok t
  | .ok (_, rest) => .error (.trailing desc (desc.length - rest.length))

/-- The type of a class reference: the internal name of an array type is its descriptor, any other
name is that of a class. -/
def ofClassName (name : Text) : ValueType :=
  match name with
  | 91 :: _ =>
    match parse name with
    | .ok t => t
    | .error _ => .object name
  | _ => .object name

end ValueType

namespace MethodType

/-- The parameters up to the closing bracket, and what follows it. The whole descriptor is given for
the errors. -/
def readParams (desc t : Text) : Except DescriptorError (List ValueType × Text) :=
  match t with
  | [] => .error (.unterminated desc)
  | 41 :: rest => .ok ([], rest)
  | t =>
    match _h : ValueType.read t with
    | .error e => .error (e.locate desc)
    | .ok (v, tail) =>
      if v = .void then .error (.voidArgument desc)
      else match readParams desc tail with
        | .error e => .error e
        | .ok (vs, rest) => .ok (v :: vs, rest)
termination_by t.length
decreasing_by exact ValueType.read_length _h

/-- The method type that a whole text writes. -/
def parse (desc : Text) : Except DescriptorError MethodType :=
  match desc with
  | 40 :: args =>
    match readParams desc args with
    | .error e => .error e
    | .ok (params, out) =>
      match ValueType.read out with
      | .error e => .error (e.locate desc)
      | .ok (result, []) => .ok ⟨params, result⟩
      | .ok (_, rest) => .error (.trailing desc (desc.length - rest.length))
  | _ => .error (.notMethod desc)

end MethodType

end CoordSplit
