import CoordSplit.Text.Utf8

/-!
# Tables of keys

A document of this format is a table: a list of keys with their values. It is written as a sequence of
statements. A pair gives a value to a key, and a header says in which table the pairs behind it stand. Keys
have several parts if they lead through tables.

`Table.ofStatements?` builds the table. A table comes to be when a path leads through it, and it may be named
once: by a header, or by a pair. A value is never given to a key twice.
-/

set_option autoImplicit false

namespace CoordSplit.Toml

/-- The parts of a key. -/
abbrev Path := List Text

/-- A value as it is written. -/
inductive Value where
  | text (t : Text)
  | int (i : Int)
  | float
  | truth (b : Bool)
  | list (items : List Value)
  /-- A table in braces: the pairs in their order. -/
  | pairs (l : List (Path × Value))

/-- A statement. -/
inductive Statement where
  /-- The table of the pairs that follow; if `element`, a new last element of a list of tables. -/
  | header (path : Path) (element : Bool)
  | pair (path : Path) (v : Value)

/-- A value in a table. -/
inductive Tree where
  | text (t : Text)
  | int (i : Int)
  | float
  | truth (b : Bool)
  | list (items : List Tree)
  /-- A table; `named` tells whether it was named, and not only led through. -/
  | table (named : Bool) (fields : List (Text × Tree))
  /-- A list of tables that headers make longer, the last one first. -/
  | tables (last : List (Text × Tree)) (before : List (List (Text × Tree)))

/-- The keys of a table with their values. -/
abbrev Table := List (Text × Tree)

namespace Table

/-- The table with another value for a key that it has. -/
def set (t : Table) (key : Text) (x : Tree) : Table := t.map fun p => if p.1 = key then (key, x) else p

/-- The table with a new key at its end. -/
def add (t : Table) (key : Text) (x : Tree) : Table := t ++ [(key, x)]

/-- The table with a change in the inner table that a path leads to. -/
def modify (f : Table → Option Table) : Path → Table → Option Table
  | [], t => f t
  | k :: rest, t =>
    match t.lookup k with
    | some (.table n sub) => (modify f rest sub).map fun s => t.set k (.table n s)
    | some (.tables l before) => (modify f rest l).map fun s => t.set k (.tables s before)
    | _ => none

/-- The table after a header. -/
def openTable (element : Bool) : Path → Table → Option Table
  | [], _ => none
  | [k], t =>
    match t.lookup k, element with
    | none, false => some (t.add k (.table true []))
    | none, true => some (t.add k (.tables [] []))
    | some (.table false sub), false => some (t.set k (.table true sub))
    | some (.tables l before), true => some (t.set k (.tables [] (l :: before)))
    | _, _ => none
  | k :: rest, t =>
    match t.lookup k with
    | none => (openTable element rest []).map fun s => t.add k (.table false s)
    | some (.table n sub) => (openTable element rest sub).map fun s => t.set k (.table n s)
    | some (.tables l before) => (openTable element rest l).map fun s => t.set k (.tables s before)
    | _ => none

/-- The table with a value for a key. A table on the way is made if there is none. -/
def put (x : Tree) : Path → Table → Option Table
  | [], _ => none
  | [k], t =>
    match t.lookup k with
    | none => some (t.add k x)
    | some (.table false sub) => some (t.set k (.table true sub))
    | _ => none
  | k :: rest, t =>
    match t.lookup k with
    | none => (put x rest []).map fun s => t.add k (.table false s)
    | some (.table _ sub) => (put x rest sub).map fun s => t.set k (.table true s)
    | some (.tables l before) => (put x rest l).map fun s => t.set k (.tables s before)
    | _ => none

end Table

mutual

/-- The value in a table of a written value. -/
def Value.tree? : Value → Option Tree
  | .text t => some (.text t)
  | .int i => some (.int i)
  | .float => some .float
  | .truth b => some (.truth b)
  | .list items => (Value.trees? items).map .list
  | .pairs l => (Value.table? [] l).map (.table true)

/-- The values in a table of written values. -/
def Value.trees? : List Value → Option (List Tree)
  | [] => some []
  | v :: rest => do return (← v.tree?) :: (← Value.trees? rest)

/-- A table with the pairs of a written one. -/
def Value.table? (t : Table) : List (Path × Value) → Option Table
  | [] => some t
  | (k, v) :: rest => do Value.table? (← Table.put (← v.tree?) k t) rest

end

mutual

/-- The keys within a value, in their order, below a path. -/
def Value.keys (path : Path) : Value → List Path
  | .list items => Value.keysOfList path items
  | .pairs l => Value.keysOfPairs path l
  | _ => []

/-- The keys within the items of a list. -/
def Value.keysOfList (path : Path) : List Value → List Path
  | [] => []
  | v :: rest => v.keys path ++ Value.keysOfList path rest

/-- The keys of pairs, and those within their values. -/
def Value.keysOfPairs (path : Path) : List (Path × Value) → List Path
  | [] => []
  | (k, v) :: rest => (path ++ k) :: (v.keys (path ++ k) ++ Value.keysOfPairs path rest)

end

/-- A document: its table, and every key that it names, in their order. -/
structure Document where
  table : Table
  keys : List Path

/-- The table of statements, which stand in the table that a path leads to. -/
def Table.ofStatements? (context : Path) (t : Table) : List Statement → Option Table
  | [] => some t
  | .header path element :: rest => do
    Table.ofStatements? path (← Table.openTable element path t) rest
  | .pair path v :: rest => do
    let x ← v.tree?
    Table.ofStatements? context (← Table.modify (Table.put x path) context t) rest

/-- The keys of statements, which stand in the table that a path leads to. -/
def Statement.keys (context : Path) : List Statement → List Path
  | [] => []
  | .header path _ :: rest => path :: Statement.keys path rest
  | .pair path v :: rest =>
    (context ++ path) :: (v.keys (context ++ path) ++ Statement.keys context rest)

/-- The document of statements. -/
def Document.ofStatements? (l : List Statement) : Option Document :=
  (Table.ofStatements? [] [] l).map fun t => ⟨t, Statement.keys [] l⟩

/-- Whether a byte may stand in a key without quotes. -/
def isBareKeyByte (b : UInt8) : Bool :=
  Text.isDigit b || (65 ≤ b && b ≤ 90) || (97 ≤ b && b ≤ 122) || b = 95 || b = 45

/-- A byte of a key in quotes. -/
def keyByte (b : UInt8) : Text :=
  match [(34, "\\\""), (92, "\\\\"), (8, "\\b"), (9, "\\t"), (10, "\\n"), (12, "\\f"),
      (13, "\\r")].lookup b with
  | some s => s
  | none => if b < 32 ∨ b = 127 then "\\u" ++ Text.hexPadded 4 b.toNat else [b]

/-- A key as it is written, with quotes around the parts that need them. -/
def pathText (path : Path) : Text :=
  Text.join [46] (path.map fun part =>
    if !part.isEmpty ∧ part.all isBareKeyByte then part else 34 :: (part.flatMap keyByte ++ [34]))

end CoordSplit.Toml
