import CoordSplit.Command

/-!
# The command line

Reads the files that a command needs, and writes what the command gives.
-/

set_option autoImplicit false

namespace CoordSplit

/-- A text for the console. -/
def Text.toBytes (t : Text) : ByteArray := ⟨t.toArray⟩

/-- The name of a file for the file system; bytes that are no UTF-8 are replaced. -/
def Text.toName (t : Text) : String :=
  String.ofList ((Text.pieces t).map fun p => match p with
    | .char code _ => Char.ofNat code
    | .stray _ => Char.ofNat 0xFFFD)

/-- The contents of a file, if it can be read. -/
def readInput (name : Text) : IO (Text × Option Text) := do
  try
    let bytes ← IO.FS.readBinFile name.toName
    return (name, some bytes.data.toList)
  catch _ => return (name, none)

/-- A name for a run: 16 random bytes in hexadecimal, in groups. -/
def freshRun : IO Text := do
  let bytes ← IO.getRandomBytes 16
  let digits := (Text.toHexPairs bytes.data.toList)
  let group (start n : Nat) : Text := (digits.drop start).take n
  let marked := group 13 3
  return Text.join [45] [group 0 8, group 8 4, 52 :: marked, 97 :: group 17 3, group 20 12]

/-- Writes outputs until one fails. -/
def writeOutputs : List Output → IO Unit
  | [] => return
  | .console t :: rest => do
    (← IO.getStdout).write t.toBytes
    writeOutputs rest
  | .notes t :: rest => do
    (← IO.getStderr).write t.toBytes
    writeOutputs rest
  | .file name t :: rest => do
    IO.FS.writeBinFile name.toName t.toBytes
    writeOutputs rest

/-- Tells why a command failed. -/
def complain (t : Text) : IO UInt32 := do
  (← IO.getStderr).write (Text.concat ["error: ", t, [10]]).toBytes
  return 1

end CoordSplit

open CoordSplit in
/-- The command line: the exit code is zero if the command succeeds. -/
def main (args : List String) : IO UInt32 := do
  match Command.parse (args.map Text.ofString) with
  | .error e => complain e.message
  | .ok c =>
    let inputs ← c.reads.mapM readInput
    let r := c.run (fun name => (inputs.lookup name).join) (← freshRun)
    try
      writeOutputs r.outputs
      match r.failure with
      | none => return 0
      | some (.fault _) => return 2
      | some (.error d) => complain d.text
    catch e => complain (Text.concat [c.name, ": ", toString e])
