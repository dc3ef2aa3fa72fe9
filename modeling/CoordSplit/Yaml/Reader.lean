import CoordSplit.Yaml.Node
import CoordSplit.Yaml.Scalar

/-!
# Reading documents

Documents consist of scalars, of lists and maps in block style, whose structure is told by columns, and of
lists and maps in brackets. Anchors, aliases, directives and keys that are introduced by a question mark are
refused.

The functions that follow the structure have a bound on their depth, which `read` computes from the size of
the text.
-/

set_option autoImplicit false

namespace CoordSplit.Yaml

/-- A scalar with its tag, if it has one, in something that is indented by `parent`. -/
def scalarNode (inRow : Bool) (parent : Int) (c : Cursor) : Option (Node × Cursor) :=
  let tag := if c.at? 33 then
      c.rest.takeWhile fun b => b ≠ 32 && b ≠ 9 && b ≠ 10 && !(inRow && isRowMark b)
    else []
  let c := if tag.isEmpty then c else (c.skip tag.length).skipBlanks
  let make (plain : Bool) (p : Text × Cursor) : Node × Cursor := (.scalar plain tag p.1, p.2)
  match c.rest with
  | [] => if tag.isEmpty then none else some (.scalar true tag [], c)
  | b :: rest =>
    if b = 34 then (doubleQuote .text {} rest (c.column + 1)).map (make false)
    else if b = 39 then (singleQuote false {} rest (c.column + 1)).map (make false)
    else if (b = 124 ∨ b = 62) ∧ !inRow then (blockScalar (b = 62) parent c).map (make false)
    else if !tag.isEmpty ∧ (b = 10 ∨ b = 35 ∨ (inRow ∧ isRowMark b)) then
      some (.scalar true tag [], c)
    else (plainScalar inRow parent c).map (make true)

mutual

/-- A node within brackets. -/
def rowNode (parent : Int) : Nat → Cursor → Option (Node × Cursor)
  | 0, _ => none
  | fuel + 1, c =>
    if c.at? 91 then (rowItems parent fuel c.step).map fun p => (.list p.1, p.2)
    else if c.at? 123 then (rowPairs parent fuel c.step).map fun p => (.map p.1, p.2)
    else scalarNode true parent c

/-- A node within brackets that may be a key, and its value if it is one. -/
def rowEntry (parent : Int) : Nat → Cursor → Option (Node × Option Node × Cursor)
  | 0, _ => none
  | fuel + 1, c =>
    match rowNode parent fuel c with
    | none => none
    | some (k, d) =>
      let e := d.skipBlanks
      if e.at? 58 ∧ c.spansKey e then
        match e.step.seekInRow with
        | none => none
        | some f =>
          if f.at? 44 ∨ f.at? 93 ∨ f.at? 125 then some (k, some .empty, f)
          else (rowNode parent fuel f).map fun p => (k, some p.1, p.2)
      else some (k, none, d)

/-- The items of a list in brackets, up to the closing one. An item may be a key with its value. -/
def rowItems (parent : Int) : Nat → Cursor → Option (List Node × Cursor)
  | 0, _ => none
  | fuel + 1, c => do
    let c ← c.seekInRow
    if c.at? 93 then return ([], c.step)
    let (k, v, d) ← rowEntry parent fuel c
    let x := match v with
      | none => k
      | some v => .map [(k, v)]
    let e ← d.seekInRow
    if e.at? 93 then return ([x], e.step)
    if e.at? 44 then
      let (xs, f) ← rowItems parent fuel e.step
      return (x :: xs, f)
    else none

/-- The pairs of a map in brackets, up to the closing one. -/
def rowPairs (parent : Int) : Nat → Cursor → Option (List (Node × Node) × Cursor)
  | 0, _ => none
  | fuel + 1, c => do
    let c ← c.seekInRow
    if c.at? 125 then return ([], c.step)
    let (k, v, d) ← rowEntry parent fuel c
    let pair := (k, v.getD .empty)
    let e ← d.seekInRow
    if e.at? 125 then return ([pair], e.step)
    if e.at? 44 then
      let (ps, f) ← rowPairs parent fuel e.step
      return (pair :: ps, f)
    else none

end

/-- A node that starts within a line and is no block list or map. -/
def inlineNode (fuel : Nat) (parent : Int) (c : Cursor) : Option (Node × Cursor) :=
  if c.at? 91 ∨ c.at? 123 then rowNode parent fuel c else scalarNode false parent c

mutual

/-- A node in block style, in something that is indented by `parent`. The place behind it need not be the
end of a line. -/
def blockNode : Nat → Int → Cursor → Option (Node × Cursor)
  | 0, _, _ => none
  | fuel + 1, parent, c =>
    if c.atDash then (blockItems fuel false c.column c).map fun p => (.list p.1, p.2)
    else match inlineNode fuel parent c with
      | none => none
      | some (x, d) =>
        let e := d.skipBlanks
        if e.atColon ∧ c.spansKey e then
          (blockPairs fuel c.column x e.step).map fun p => (.map p.1, p.2)
        else some (x, d)

/-- The items of a block list whose dashes stand in a column. If `flush`, the list is the value of a key in
the same column, and the next key ends it. -/
def blockItems : Nat → Bool → Nat → Cursor → Option (List Node × Cursor)
  | 0, _, _, _ => none
  | fuel + 1, flush, column, c => do
    let after := c.step
    let (x, d) ← match after.seek .lineStart with
      | .misplacedTab => none
      | .finish | .marker _ => some (Node.empty, after)
      | .content d => if column < d.column then blockNode fuel column d else some (Node.empty, after)
    if !d.atLineEnd then none
    else match d.seek .inLine with
      | .misplacedTab => none
      | .finish | .marker _ => return ([x], d)
      | .content e =>
        if e.column < column then return ([x], d)
        else if e.column = column ∧ e.atDash then
          let (xs, f) ← blockItems fuel flush column e
          return (x :: xs, f)
        else if e.column = column ∧ flush then return ([x], d)
        else none

/-- The pairs of a block map whose keys stand in a column, from the value of the key `k` on. -/
def blockPairs : Nat → Nat → Node → Cursor → Option (List (Node × Node) × Cursor)
  | 0, _, _, _ => none
  | fuel + 1, column, k, c => do
    let s := c.skipBlanks
    let (v, d) ← if s.atLineEnd then
        match s.seek .inLine with
        | .misplacedTab => none
        | .finish | .marker _ => some (Node.empty, s)
        | .content d =>
          if column < d.column then blockNode fuel column d
          else if d.column = column ∧ d.atDash then
            (blockItems fuel true column d).map fun p => (.list p.1, p.2)
          else some (Node.empty, s)
      else inlineNode fuel column s
    if !d.atLineEnd then none
    else match d.seek .inLine with
      | .misplacedTab => none
      | .finish | .marker _ => return ([(k, v)], d)
      | .content e =>
        if e.column < column then return ([(k, v)], d)
        else if e.column ≠ column then none
        else
          let (next, f) ← inlineNode fuel column e
          let g := f.skipBlanks
          if g.atColon ∧ e.spansKey g then
            let (ps, h) ← blockPairs fuel column next g.step
            return ((k, v) :: ps, h)
          else none

end

/-- The text with every line end written as one byte. -/
def unifyBreaks : Text → Text
  | [] => []
  | 13 :: 10 :: rest => 10 :: unifyBreaks rest
  | 0xC2 :: 0x85 :: rest => 10 :: unifyBreaks rest
  | b :: rest => (if b = 13 then 10 else b) :: unifyBreaks rest

/-- Whether a document may hold a character. -/
def isAllowedCode (c : Nat) : Bool :=
  c = 9 || c = 13 || c = 0x85 || c = 0xFEFF || 0x10000 ≤ c || isPlainCode c

/-- Whether the text behind a document begins like a document, or ends. More of it is not looked at. -/
def goesOn (fuel : Nat) (d : Cursor) : Bool :=
  match d.seek .inLine with
  | .finish | .marker _ => true
  | .misplacedTab => false
  | .content e =>
    let newLine := (d.upTo e).contains 10
    if e.atDash then newLine
    else if e.at? 44 ∨ e.at? 93 ∨ e.at? 125 then true
    else match inlineNode fuel (-1) e with
      | none => false
      | some (_, f) => newLine || !f.skipBlanks.atColon

/-- The first document of a text, at a place where it may be a block list or map if `block`. -/
def readDocument (fuel : Nat) (block : Bool) (c : Cursor) : Option Node := do
  let (x, d) ← if block then blockNode fuel (-1) c else inlineNode fuel (-1) c
  if goesOn fuel d && (block || !d.skipBlanks.atColon) then some x else none

/-- The first document of a text; none if the text holds no document, or cannot be read. What follows the
document is not read. -/
def read (t : Text) : Option Node :=
  if !Text.isUtf8 t || !(codes t).all isAllowedCode then none
  else
    let body := if Text.startsWith t [0xEF, 0xBB, 0xBF] then t.drop 3 else t
    let start : Cursor := ⟨unifyBreaks body, 0⟩
    let fuel := 4 * start.rest.length + 8
    match start.seek .lineStart with
    | .misplacedTab | .finish => none
    | .content c => readDocument fuel true c
    | .marker c =>
      if c.at? 46 then none
      else
        let s := (c.skip 3).skipBlanks
        match s.seek .inLine with
        | .misplacedTab => none
        | .finish | .marker _ => some .empty
        | .content e => readDocument fuel s.atLineEnd e

end CoordSplit.Yaml
