import CoordSplit.Cbor.Basic

/-!
# Reading binary data items

`Cbor.decode` reads one item from bytes that hold nothing else. Sizes may be given in any width or left
open, items may be tagged, and nesting is limited.
-/

set_option autoImplicit false

namespace CoordSplit.Cbor

/-- The number that the first `k` bytes write, the greatest first, and the bytes behind them. -/
def takeNat : Nat → Nat → Text → Option (Nat × Text)
  | 0, n, t => some (n, t)
  | _ + 1, _, [] => none
  | k + 1, n, b :: rest => takeNat k (n * 256 + b.toNat) rest

/-- The first `k` bytes and those behind them. -/
def takeBytes (k : Nat) (t : Text) : Option (Text × Text) :=
  if k ≤ t.length then some (t.take k, t.drop k) else none

/-- A head: kind, lower bits, and size, which is none where it is left open. -/
structure Head where
  major : Major
  low : Nat
  size : Option Nat

/-- The first head and the bytes behind it. -/
def takeHead : Text → Option (Head × Text)
  | [] => none
  | b :: rest =>
    let major := b.toNat / 32
    let low := b.toNat % 32
    let wide (k : Nat) := (takeNat k 0 rest).map fun p => (⟨major, low, some p.1⟩, p.2)
    if low < 24 then some (⟨major, low, some low⟩, rest)
    else if low = 24 then wide 1
    else if low = 25 then wide 2
    else if low = 26 then wide 4
    else if low = 27 then wide 8
    else if low = 31 then some (⟨major, low, none⟩, rest)
    else none

/-- The greatest number of elements of an array, and of pairs of a map. -/
def maxElements : Nat := 131072

/-- The greatest depth of nesting. -/
def maxDepth : Nat := 32

/-- The parts of a string of the kind `major` written without its size, up to the end mark. -/
def takeParts (major : Major) : Nat → Text → Option (List Text × Text)
  | 0, _ => none
  | _ + 1, [] => none
  | fuel + 1, b :: rest =>
    if b = 255 then some ([], rest)
    else do
      let (h, rest) ← takeHead (b :: rest)
      if h.major ≠ major then none
      else do
        let n ← h.size
        let (part, rest) ← takeBytes n rest
        let (parts, rest) ← takeParts major fuel rest
        return (part :: parts, rest)

/-- Items two by two. -/
def pair : List Cbor → List (Cbor × Cbor)
  | k :: v :: rest => (k, v) :: pair rest
  | _ => []

mutual

/-- The first item and the bytes behind it. `depth` is the nesting that is still allowed. -/
def takeItem : Nat → Nat → Text → Option (Cbor × Text)
  | 0, _, _ => none
  | fuel + 1, depth, t => do
    let (h, rest) ← takeHead t
    match h.major, h.size with
    | 0, some n => some (.nat n, rest)
    | 1, some n => some (.negative n, rest)
    | 2, some n => (takeBytes n rest).map fun p => (.bytes p.1, p.2)
    | 2, none => (takeParts 2 fuel rest).map fun p => (.bytes (Text.concat p.1), p.2)
    | 3, some n => (takeBytes n rest).map fun p => (.text [p.1], p.2)
    | 3, none => (takeParts 3 fuel rest).map fun p => (.text p.1, p.2)
    | 4, some n =>
      if depth = 0 ∨ n > maxElements then none
      else (takeItems fuel (depth - 1) n rest).map fun p => (.array p.1, p.2)
    | 4, none =>
      if depth = 0 then none
      else do
        let (items, rest) ← takeOpen fuel (depth - 1) rest
        if items.length > maxElements then none else some (.array items, rest)
    | 5, some n =>
      if depth = 0 ∨ n > maxElements then none
      else (takeItems fuel (depth - 1) (2 * n) rest).map fun p => (.map (pair p.1), p.2)
    | 5, none =>
      if depth = 0 then none
      else do
        let (items, rest) ← takeOpen fuel (depth - 1) rest
        if items.length % 2 = 1 ∨ items.length > 2 * maxElements then none
        else some (.map (pair items), rest)
    | 6, some n =>
      if depth = 0 then none
      else (takeItem fuel (depth - 1) rest).map fun p => (.tagged n p.1, p.2)
    | 7, some n =>
      if h.low < 24 then some (.simple n, rest)
      else if h.low = 24 then if n < 32 then none else some (.simple n, rest)
      else if h.low = 25 then some (.float 2 n, rest)
      else if h.low = 26 then some (.float 4 n, rest)
      else some (.float 8 n, rest)
    | _, _ => none

/-- The first `n` items and the bytes behind them. -/
def takeItems : Nat → Nat → Nat → Text → Option (List Cbor × Text)
  | 0, _, _, _ => none
  | _ + 1, _, 0, t => some ([], t)
  | fuel + 1, depth, n + 1, t => do
    let (x, rest) ← takeItem fuel depth t
    let (xs, rest) ← takeItems fuel depth n rest
    return (x :: xs, rest)

/-- The items up to the end mark and the bytes behind it. -/
def takeOpen : Nat → Nat → Text → Option (List Cbor × Text)
  | 0, _, _ => none
  | _ + 1, _, [] => none
  | fuel + 1, depth, b :: rest =>
    if b = 255 then some ([], rest)
    else do
      let (x, rest) ← takeItem fuel depth (b :: rest)
      let (xs, rest) ← takeOpen fuel depth rest
      return (x :: xs, rest)

end

/-- The item that the bytes hold. Every step takes at least one byte or ends a list, so twice the number
of bytes is enough fuel. -/
def decode (t : Text) : Option Cbor :=
  match takeItem (2 * t.length + 2) maxDepth t with
  | some (x, []) => some x
  | _ => none

end CoordSplit.Cbor
