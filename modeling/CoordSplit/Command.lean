import CoordSplit.Catalog.Document
import CoordSplit.Catalog.Listing
import CoordSplit.ClassFile
import CoordSplit.Report

/-!
# Commands

The commands transform classes, print classes as assembly text, and list a catalog. A command is read from its
arguments (`Command.parse`). What it does is computed without doing it: `Command.run` takes the contents of
the files that the command reads (`Command.reads`), and gives what it prints and writes in its order, up to
its end or the first failure. A write that fails ends the command, too (`Run.settle`).
-/

set_option autoImplicit false

namespace CoordSplit

/-- What can be asked of a transformation. -/
structure TransformOptions where
  /-- The file of the catalog; the built-in catalog if empty. -/
  catalog : Text := []
  /-- The file to write to; the console if empty. -/
  out : Text := []
  /-- What is put behind the names of methods that keep their descriptor. -/
  suffix : Text := defaultSuffix
  /-- The file for the reports. -/
  report : Text := []
  inputs : List Text := []

/-- A command. -/
inductive Command where
  | transform (options : TransformOptions)
  | dump (inputs : List Text)
  | catalog (file : Text)

/-- Why arguments are no command. -/
inductive UsageError where
  | noCommand
  | unknownCommand (name : Text)
  | unknownFlag (flag : Text)
  | missingValue (flag : Text)
  | badNumber (flag value : Text) (cause : NumeralError)
  | extraArgument (arg : Text)
  /-- An error in the arguments of a command. -/
  | within (command : Text) (cause : UsageError)

/-- The wording of the cause. -/
def UsageError.message : UsageError → Text
  | .noCommand => "command expected"
  | .unknownCommand n => "no such command: " ++ n
  | .unknownFlag f => "no such flag: " ++ f
  | .missingValue f => Text.concat ["flag ", f, ": value expected"]
  | .badNumber f v e =>
    Text.concat ["flag ", f, ": strconv.ParseInt: parsing ", Text.quote v, ": ", e.message]
  | .extraArgument a => "unexpected argument: " ++ a
  | .within c e => Text.concat [c, ": ", e.message]

namespace Command

/-- The name of a command. -/
def name : Command → Text
  | .transform _ => "transform"
  | .dump _ => "dump"
  | .catalog _ => "catalog"

/-- The commands without their arguments. -/
def all : List Command := [.transform {}, .dump [], .catalog []]

/-- The name of a flag with the dashes, and the value behind an equals sign, if there is one. -/
def splitFlag (arg : Text) : Text × Option Text :=
  match Text.cut 61 arg with
  | some (f, v) => (f, some v)
  | none => (arg, none)

/-- Whether an argument is a flag. -/
def isFlag (arg : Text) : Bool := arg.head? = some 45 && arg.length > 1

/-- The flags that every command has. They say how much is logged, and change nothing else. -/
def commonFlags : List Text := ["-v", "--verbosity"].map Text.ofString

/-- A number in the value of a flag, which is checked only. -/
def checkNumber (flag value : Text) : Except UsageError Unit :=
  match Text.intValue .detect 64 value with
  | .ok _ => .ok ()
  | .error e => .error (.badNumber flag value e)

/-- The command with a flag set. -/
def setFlag (c : Command) (flag value : Text) : Except UsageError Command :=
  let is (s : String) : Bool := flag = Text.ofString s
  if commonFlags.contains flag then .ok c
  else match c with
    | .transform o =>
      if is "--catalog" then .ok (.transform { o with catalog := value })
      else if is "--out" || is "-o" then .ok (.transform { o with out := value })
      else if is "--suffix" then .ok (.transform { o with suffix := value })
      else if is "--report" then .ok (.transform { o with report := value })
      else if is "--jobs" || is "-j" then (checkNumber flag value).map fun _ => c
      else .error (.unknownFlag flag)
    | .catalog _ => if is "--catalog" then .ok (.catalog value) else .error (.unknownFlag flag)
    | .dump _ => .error (.unknownFlag flag)

/-- Whether a command has a flag. -/
def hasFlag (c : Command) (flag : Text) : Bool :=
  match c.setFlag flag [48] with
  | .ok _ => true
  | .error _ => false

/-- The command with one more argument. -/
def addArgument (c : Command) (arg : Text) : Except UsageError Command :=
  match c with
  | .transform o => .ok (.transform { o with inputs := o.inputs ++ [arg] })
  | .dump inputs => .ok (.dump (inputs ++ [arg]))
  | .catalog _ => .error (.extraArgument arg)

/-- The command with its flags and arguments. The value of a flag stands behind an equals sign or is the next
argument. -/
def parseArguments (c : Command) : List Text → Except UsageError Command
  | [] => .ok c
  | [arg] =>
    if isFlag arg then
      match splitFlag arg with
      | (f, some v) => c.setFlag f v
      | (f, none) => .error (if c.hasFlag f then .missingValue f else .unknownFlag f)
    else c.addArgument arg
  | arg :: next :: rest =>
    if isFlag arg then
      match splitFlag arg with
      | (f, some v) => (c.setFlag f v).bind fun c => c.parseArguments (next :: rest)
      | (f, none) => (c.setFlag f next).bind fun c => c.parseArguments rest
    else (c.addArgument arg).bind fun c => c.parseArguments (next :: rest)

/-- The command of a list of arguments. Flags that every command has may stand before its name. -/
def parse : List Text → Except UsageError Command
  | [] => .error .noCommand
  | [arg] => start arg []
  | arg :: next :: rest =>
    if isFlag arg then
      match splitFlag arg with
      | (f, some _) => if commonFlags.contains f then parse (next :: rest) else .error (.unknownFlag f)
      | (f, none) => if commonFlags.contains f then parse rest else .error (.unknownFlag f)
    else start arg (next :: rest)
where
  /-- The command with a name. -/
  start (arg : Text) (rest : List Text) : Except UsageError Command :=
    match all.find? fun c => c.name = arg with
    | some c =>
      match c.parseArguments rest with
      | .ok c => .ok c
      | .error e => .error (.within arg e)
    | none => .error (if isFlag arg then .unknownFlag arg else .unknownCommand arg)

/-- The files that a command reads. -/
def reads : Command → List Text
  | .transform o => (if o.catalog.isEmpty then [] else [o.catalog]) ++ o.inputs
  | .dump inputs => inputs
  | .catalog file => if file.isEmpty then [] else [file]

end Command

/-- Something that a command writes. -/
inductive Output where
  | console (t : Text)
  /-- The console for messages. -/
  | notes (t : Text)
  | file (name contents : Text)

/-- What a command does: what it writes, one after the other, and why it ends early if it does. -/
structure Run where
  outputs : List Output
  failure : Option (Failure Diagnostic)

namespace Command

/-- The contents of files by name; none for a file that does not exist. -/
abbrev Files := Text → Option Text

/-- The catalog of a file, or the built-in one. -/
def loadCatalog (files : Files) (file : Text) : Except Diagnostic Catalog :=
  if file.isEmpty then Catalog.standard else Catalog.ofFile file (files file)

/-- The class in a file. -/
def readClass (files : Files) (file : Text) : Outcome Diagnostic ClassModel :=
  (Outcome.lift (ClassModel.ofFile file (files file))).mapError (·.within ("read " ++ file))

/-- The class in a file as assembly text. -/
def dumpFile (files : Files) (file : Text) : Outcome Diagnostic Text := do
  let c ← readClass files file
  (ClassFormat.assembly.encode c).mapError (·.within ("format " ++ file))

/-- Classes are printed until one fails. -/
def dumpAll (files : Files) : List Text → Run
  | [] => ⟨[], none⟩
  | a :: rest =>
    match dumpFile files a with
    | .error e => ⟨[], some e⟩
    | .ok t =>
      let r := dumpAll files rest
      ⟨.console t :: r.outputs, r.failure⟩

/-- The class in a file is transformed. -/
def transformFile (files : Files) (cat : Catalog) (o : TransformOptions) (run file : Text) :
    Outcome Diagnostic (Output × Report) := do
  let c ← readClass files file
  let (res, report) ← (c.transform cat o.suffix run).mapError fun e =>
    e.diagnostic.within ("transform " ++ file)
  let data ← ((ClassFormat.ofName o.out).encode res).mapError (·.within ("encode " ++ file))
  return (if o.out.isEmpty then .console data else .file o.out data, report)

/-- Classes are transformed until one fails; the reports are on those before. -/
def transformAll (files : Files) (cat : Catalog) (o : TransformOptions) (run : Text) :
    List Text → Run × List Report
  | [] => (⟨[], none⟩, [])
  | a :: rest =>
    match transformFile files cat o run a with
    | .error e => (⟨[], some e⟩, [])
    | .ok (out, report) =>
      let (r, reports) := transformAll files cat o run rest
      (⟨out :: r.outputs, r.failure⟩, report :: reports)

/-- Reports are written last. Without any, the place for them stays empty, which counts as a failure. -/
def writeReports (file : Text) (reports : List Report) : Run :=
  let t := Report.printAll reports
  ⟨[if file.isEmpty then .notes t else .file file t],
    if reports.isEmpty then some (.error ⟨"report", .undecodable .yaml, none⟩) else none⟩

/-- The transformation of classes. -/
def runTransform (files : Files) (run : Text) (o : TransformOptions) : Run :=
  match loadCatalog files o.catalog with
  | .error d => ⟨[], some (.error d)⟩
  | .ok cat =>
    if !o.out.isEmpty ∧ o.inputs.length ≠ 1 then
      ⟨[], some (.error (.plain
        ("--out needs exactly one input file, got " ++ Text.ofNat o.inputs.length)))⟩
    else
      let (r, reports) := transformAll files cat o run o.inputs
      match r.failure with
      | some _ => r
      | none =>
        let last := writeReports o.report reports
        ⟨r.outputs ++ last.outputs, last.failure⟩

/-- What a command does with some files, under the name `run`. -/
def run (files : Files) (run : Text) (c : Command) : Run :=
  let r : Run := match c with
    | .transform o => runTransform files run o
    | .dump inputs => dumpAll files inputs
    | .catalog file =>
      match loadCatalog files file with
      | .error d => ⟨[], some (.error d)⟩
      | .ok cat => ⟨[.console cat.listing], none⟩
  { r with failure := r.failure.map fun e => match e with
    | .fault f => .fault f
    | .error d => .error (d.within c.name) }

end Command

/-- What a command leaves behind. -/
structure Settled where
  console : Text := []
  /-- The files that were written, the first ones first. -/
  files : List (Text × Text) := []
  failure : Option (Failure Diagnostic) := none

/-- What a command leaves behind if only some files can be written: the first other one ends it. -/
def Run.settle (writable : Text → Bool) (r : Run) : Settled :=
  go {} r.outputs
where
  /-- The outputs one after the other. -/
  go (s : Settled) : List Output → Settled
    | [] => { s with failure := r.failure }
    | .console t :: rest => go { s with console := s.console ++ t } rest
    | .notes _ :: rest => go s rest
    | .file name t :: rest =>
      if writable name then go { s with files := s.files ++ [(name, t)] } rest
      else { s with failure := some (.error ⟨"write", .file, none⟩) }

end CoordSplit
