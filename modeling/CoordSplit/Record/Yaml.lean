import CoordSplit.Record.Basic
import CoordSplit.Yaml.Printer

/-!
# Records as printed documents

The fields of a record stand in a fixed order. Those that may be left out are left out when they are empty,
and lists of names and numbers stand on one line.
-/

set_option autoImplicit false

namespace CoordSplit

namespace Yaml

/-- A field that is left out if a condition fails. -/
def fieldIf (present : Bool) (name : String) (x : Tree) : List (String × Tree) :=
  if present then [(name, x)] else []

/-- A text field that is left out if it is empty. -/
def textField (name : String) (t : Text) : List (String × Tree) := fieldIf (!t.isEmpty) name (.text t)

/-- A number field that is left out if it is zero. -/
def intField (name : String) (i : Int) : List (String × Tree) := fieldIf (i ≠ 0) name (.int i)

/-- A list field that is left out if it is empty. -/
def listField {α : Type} (name : String) (f : α → Tree) (l : List α) : List (String × Tree) :=
  fieldIf (!l.isEmpty) name (.list (l.map f))

/-- A list field on one line that is left out if it is empty. -/
def rowField {α : Type} (name : String) (f : α → Tree) (l : List α) : List (String × Tree) :=
  fieldIf (!l.isEmpty) name (.row (l.map f))

end Yaml

open Yaml

/-- A constant as a document. -/
def ConstantRecord.toTree (c : ConstantRecord) : Tree :=
  .map [("kind", .text c.kind), ("value", .text c.value)]

/-- An instruction as a document. -/
def InsnRecord.toTree (r : InsnRecord) : Tree :=
  .map (("op", .text r.op) :: intField "label" r.label ++ intField "slot" r.slot ++
    intField "int" r.int ++ (r.const.map fun c => ("const", c.toTree)).toList ++
    textField "owner" r.owner ++ textField "name" r.name ++ textField "desc" r.desc ++
    fieldIf r.itf "itf" (.truth r.itf) ++ intField "target" r.target ++
    rowField "targets" Tree.int r.targets ++ rowField "keys" Tree.int r.keys)

/-- An entry of the local variable table as a document. -/
def LocalRecord.toTree (l : LocalRecord) : Tree :=
  .map ([("name", .text l.name), ("desc", .text l.desc)] ++ textField "signature" l.signature ++
    [("slot", .int l.slot), ("start", .int l.start), ("end", .int l.stop)])

/-- A handler as a document. -/
def HandlerRecord.toTree (h : HandlerRecord) : Tree :=
  .map (textField "type" h.type ++
    [("start", .int h.start), ("end", .int h.stop), ("handler", .int h.handler)])

/-- A method as a document. -/
def MethodRecord.toTree (m : MethodRecord) : Tree :=
  .map ([("name", .text m.name), ("desc", .text m.desc)] ++ rowField "access" Tree.text m.access ++
    [("max_stack", .int m.maxStack), ("max_locals", .int m.maxLocals),
     ("code", .list (m.code.map InsnRecord.toTree))] ++
    listField "locals" LocalRecord.toTree m.locals ++
    listField "handlers" HandlerRecord.toTree m.handlers)

/-- A class as a document. -/
def ClassRecord.toTree (c : ClassRecord) : Tree :=
  .map (("name", .text c.name) :: textField "super" c.parent ++
    [("methods", .list (c.methods.map MethodRecord.toTree))])

end CoordSplit
