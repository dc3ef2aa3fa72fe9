import CoordSplit.Record.Yaml
import CoordSplit.Transform

/-!
# Printed reports

The report on a class is a document; several reports are separated by a line of three dashes.
-/

set_option autoImplicit false

namespace CoordSplit

/-- The report on a method as a document. What was not done is left out. -/
def MethodReport.toTree (m : MethodReport) : Yaml.Tree :=
  let (status, new, error) : Text × Text × Text := match m.status with
    | .unchanged => ("unchanged", [], [])
    | .transformed t => ("transformed", t, [])
    | .failed e => ("failed", [], e.diagnostic.text)
  .map ([("method", .text m.title), ("status", .text status)] ++ Yaml.textField "new" new ++
    Yaml.rowField "expanded" (fun n : Nat => .int n) m.expanded ++
    Yaml.fieldIf (!m.patterns.isEmpty) "rules" (.map (m.patterns.map fun p => (p.1, .int p.2))) ++
    Yaml.intField "calls" m.calls ++ Yaml.listField "warnings" .text m.warnings ++
    Yaml.textField "error" error)

/-- The report on a class as a document. -/
def Report.toTree (r : Report) : Yaml.Tree :=
  .map [("run", .text r.run), ("class", .text r.className),
    ("methods", .list (r.methods.map MethodReport.toTree))]

/-- Reports one after the other. -/
def Report.printAll (rs : List Report) : Text :=
  Text.join (Text.ofString "---\n") (rs.map fun r => r.toTree.print)

end CoordSplit
