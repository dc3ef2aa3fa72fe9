import CoordSplit.Assembly.Lexeme
import CoordSplit.Assembly.Directive

/-!
# Reading assembly text

A text holds one class: a `class` line and then methods, each from a `method` line to an `end` line.
Labels may be used before they are defined, so references are resolved at the end of the method. The
first line at fault is reported, except that an undefined label is noticed only at the end of its
method.
-/

set_option autoImplicit false

namespace CoordSplit.Assembly

/-- A line that is refused, by its number, and why. -/
structure SourceError where
  line : Nat
  cause : LineError

namespace SourceError

/-- The failure as it is reported. -/
def diagnostic (e : SourceError) : Diagnostic :=
  ⟨Text.concat ["line ", Text.ofNat e.line, ": ", e.cause.message], .source e.line, none⟩

end SourceError

/-- A method whose `end` line has not been read yet. -/
structure OpenMethod where
  name : Text
  desc : Text
  access : Access
  /-- The lines read so far with their numbers, last first. -/
  body : List (Nat × Item)

namespace OpenMethod

/-- Whether a line stands for an instruction, labels included. -/
def isCode : Item → Bool
  | .insn _ | .jump _ _ | .switch _ _ _ _ | .label _ => true
  | _ => false

/-- Whether a label of that name is defined. -/
def defines (m : OpenMethod) (name : Text) : Bool :=
  m.body.any fun l => match l.2 with
    | .label n => n = name
    | _ => false

/-- The ids of the labels of a body in order, where ids are given to instructions from `n` on. -/
def labelIds : Nat → List (Nat × Item) → List (Text × InsnId)
  | _, [] => []
  | n, (_, .label name) :: rest => (name, (n : Int)) :: labelIds (n + 1) rest
  | n, (_, item) :: rest => labelIds (if isCode item then n + 1 else n) rest

/-- A body with its labels resolved. -/
structure Resolved where
  code : List Insn
  locals : List LocalVar
  handlers : List Handler
  limits : Int × Int

/-- The id of a label that a line refers to. -/
def resolve (labels : List (Text × InsnId)) (line : Nat) (name : Text) :
    Except SourceError InsnId :=
  match labels.lookup name with
  | some id => .ok id
  | none => .error ⟨line, .undefinedLabel name⟩

/-- The method body with every label resolved, line by line. -/
def resolveBody (labels : List (Text × InsnId)) : List (Nat × Item) → Resolved →
    Except SourceError Resolved
  | [], r => .ok r
  | (line, item) :: rest, r => do
    let id := resolve labels line
    let r ← match item with
      | .insn x => pure { r with code := x :: r.code }
      | .label _ => pure { r with code := .label :: r.code }
      | .jump op target => do
        let t ← id target
        pure { r with code := .jump op t :: r.code }
      | .switch op keys otherwise targets => do
        let d ← id otherwise
        let ts ← targets.mapM id
        pure { r with code := .switch op keys d ts :: r.code }
      | .variable v start stop => do
        let s ← id start
        let e ← id stop
        pure { r with locals := { v with start := s, stop := e } :: r.locals }
      | .handler type start stop handler => do
        let s ← id start
        let e ← id stop
        let h ← id handler
        pure { r with handlers := ⟨type, s, e, h⟩ :: r.handlers }
      | .limits s l => pure { r with limits := (s, l) }
    resolveBody labels rest r

/-- The finished method. -/
def finish (m : OpenMethod) : Except SourceError Method := do
  let body := m.body.reverse
  let r ← resolveBody (labelIds 0 body) body ⟨[], [], [], (0, 0)⟩
  return {
    name := m.name
    desc := m.desc
    access := m.access
    code := .ofList r.code.reverse
    locals := r.locals.reverse
    handlers := r.handlers.reverse
    maxStack := r.limits.1
    maxLocals := r.limits.2 }

end OpenMethod

/-- What has been read of a text. -/
structure ParseState where
  /-- The number of lines read. -/
  line : Nat
  /-- The class, with its finished methods last first. -/
  classModel : Option ClassModel
  method : Option OpenMethod

/-- The flags of a method line, in the order in which they are refused. -/
def accessFlags : List Text → Except LineError Access
  | [] => .ok .none
  | f :: rest =>
    match Access.ofName? f with
    | none => .error (.unknownAccess f)
    | some a => (accessFlags rest).map a.union

/-- The method that a method line starts, from the words behind the first. -/
def methodLine (args : List Text) : Except LineError OpenMethod :=
  match args.reverse with
  | desc :: name :: flags =>
    match MethodType.parse desc with
    | .error e => .error (.descriptor "method descriptor" e)
    | .ok _ => (accessFlags flags.reverse).map fun access => ⟨name, desc, access, []⟩
  | _ => .error .methodUsage

/-- A line is read: its words in the state reached before it. -/
def readLine (s : ParseState) (words : List Text) : Except SourceError ParseState :=
  let fail {α : Type} (e : LineError) : Except SourceError α := .error ⟨s.line, e⟩
  match words with
  | [] => .ok s
  | word :: args =>
    if word = ("class" : Text) then
      if s.classModel.isSome then fail .secondClass
      else match args with
        | [name] => .ok { s with classModel := some ⟨name, ClassModel.defaultParent, []⟩ }
        | [name, parent] => .ok { s with classModel := some ⟨name, parent, []⟩ }
        | _ => fail .classUsage
    else match s.classModel with
      | none => fail .classExpected
      | some c =>
        if word = ("method" : Text) then
          if s.method.isSome then fail .nestedMethod
          else match methodLine args with
            | .error e => fail e
            | .ok m => .ok { s with method := some m }
        else match s.method with
          | none => fail (.methodExpected word)
          | some m =>
            if word = ("end" : Text) then do
              let done ← m.finish
              return { s with classModel := some { c with methods := done :: c.methods }, method := none }
            else match bodyItem word args with
              | .error e => fail e
              | .ok (.label name) =>
                if m.defines name then fail (.labelRedefined name)
                else .ok { s with method := some { m with body := (s.line, .label name) :: m.body } }
              | .ok item => .ok { s with method := some { m with body := (s.line, item) :: m.body } }

/-- All lines are read one after the other. -/
def readLines (s : ParseState) : List (Option (List Text)) → Except SourceError ParseState
  | [] => .ok s
  | line :: rest =>
    let s := { s with line := s.line + 1 }
    match line with
    | none => .error ⟨s.line, .unterminated⟩
    | some words =>
      match readLine s words with
      | .error e => .error e
      | .ok s => readLines s rest

/-- The class that a text holds. -/
def parse (t : Text) : Except SourceError ClassModel := do
  let s ← readLines ⟨0, none, none⟩ (lines t)
  match s.method with
  | some m => throw ⟨s.line, .endExpected m.name⟩
  | none =>
    match s.classModel with
    | none => throw ⟨s.line, .classExpected⟩
    | some c => return { c with methods := c.methods.reverse }

end CoordSplit.Assembly
