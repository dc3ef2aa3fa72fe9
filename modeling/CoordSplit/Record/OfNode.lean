import CoordSplit.Record.Basic
import CoordSplit.Yaml.Node

/-!
# Records from read documents

The fields of a record may stand in any order, and a field that is missing has its default. A field of
another name, or a value of another kind, is refused.
-/

set_option autoImplicit false

namespace CoordSplit

/-- The constant of a node. -/
def ConstantRecord.ofNode? : Yaml.Node → Option (Option ConstantRecord) :=
  Yaml.Node.record? ["kind", "value"] fun l => do
    return ⟨← Yaml.Node.textField l "kind", ← Yaml.Node.textField l "value"⟩

/-- The instruction of a node. -/
def InsnRecord.ofNode? : Yaml.Node → Option (Option InsnRecord) :=
  Yaml.Node.record?
    ["op", "label", "slot", "int", "const", "owner", "name", "desc", "itf", "target", "targets", "keys"]
    fun l => do
      return {
        op := ← Yaml.Node.textField l "op"
        label := ← Yaml.Node.intField l "label"
        slot := ← Yaml.Node.intField l "slot"
        int := ← Yaml.Node.intField l "int"
        const := ← Yaml.Node.field l "const" (fun n => (ConstantRecord.ofNode? n).map some) none
        owner := ← Yaml.Node.textField l "owner"
        name := ← Yaml.Node.textField l "name"
        desc := ← Yaml.Node.textField l "desc"
        itf := ← Yaml.Node.boolField l "itf"
        target := ← Yaml.Node.intField l "target"
        targets := ← Yaml.Node.listField l "targets" (Yaml.Node.int? 64)
        keys := ← Yaml.Node.listField l "keys" (Yaml.Node.int? 32) }

/-- The entry of the local variable table of a node. -/
def LocalRecord.ofNode? : Yaml.Node → Option (Option LocalRecord) :=
  Yaml.Node.record? ["name", "desc", "signature", "slot", "start", "end"] fun l => do
    return ⟨← Yaml.Node.textField l "name", ← Yaml.Node.textField l "desc",
      ← Yaml.Node.textField l "signature",
      ← Yaml.Node.intField l "slot", ← Yaml.Node.intField l "start", ← Yaml.Node.intField l "end"⟩

/-- The handler of a node. -/
def HandlerRecord.ofNode? : Yaml.Node → Option (Option HandlerRecord) :=
  Yaml.Node.record? ["type", "start", "end", "handler"] fun l => do
    return ⟨← Yaml.Node.textField l "type", ← Yaml.Node.intField l "start",
      ← Yaml.Node.intField l "end",
      ← Yaml.Node.intField l "handler"⟩

/-- The method of a node. -/
def MethodRecord.ofNode? : Yaml.Node → Option (Option MethodRecord) :=
  Yaml.Node.record? ["name", "desc", "access", "max_stack", "max_locals", "code", "locals",
      "handlers"] fun l => do
    return {
      name := ← Yaml.Node.textField l "name"
      desc := ← Yaml.Node.textField l "desc"
      access := ← Yaml.Node.listField l "access" Yaml.Node.text?
      maxStack := ← Yaml.Node.intField l "max_stack"
      maxLocals := ← Yaml.Node.intField l "max_locals"
      code := ← Yaml.Node.listField l "code" InsnRecord.ofNode?
      locals := ← Yaml.Node.listField l "locals" LocalRecord.ofNode?
      handlers := ← Yaml.Node.listField l "handlers" HandlerRecord.ofNode? }

/-- The class of a node; a node that stands for nothing gives the class without a name. -/
def ClassRecord.ofNode? (n : Yaml.Node) : Option ClassRecord :=
  let read := Yaml.Node.record? ["name", "super", "methods"] fun l => do
    return (⟨← Yaml.Node.textField l "name", ← Yaml.Node.textField l "super",
      ← Yaml.Node.listField l "methods" MethodRecord.ofNode?⟩ : ClassRecord)
  (read n).map fun c => c.getD {}

end CoordSplit
