import CoordSplit.Text.Utf8

/-!
# Binary data items

The data items of the binary document format: numbers, strings, arrays and maps, each introduced by a head
that gives its kind and a size.

`Cbor.encode` writes an item in canonical form: shortest heads, definite sizes, and maps ordered by their
keys, shorter ones first.
-/

set_option autoImplicit false

namespace CoordSplit

/-- A data item. -/
inductive Cbor where
  | nat (n : Nat)
  /-- The number `-1 - n`. -/
  | negative (n : Nat)
  | bytes (b : Text)
  /-- A text by its parts, of which there are several if it was written without its size. -/
  | text (parts : List Text)
  | array (items : List Cbor)
  | map (pairs : List (Cbor × Cbor))
  | tagged (tag : Nat) (item : Cbor)
  /-- A simple value; 20 is false, 21 true, 22 null and 23 undefined. -/
  | simple (n : Nat)
  /-- A floating point number of the given size in bytes, by its bits. -/
  | float (size bits : Nat)

namespace Cbor

/-- The kinds of items, as the upper bits of a head. -/
abbrev Major := Nat

/-- A number as bytes, the greatest first. -/
def bigEndian : Nat → Nat → Text
  | 0, _ => []
  | k + 1, n => UInt8.ofNat (n / 256 ^ k) :: bigEndian k n

/-- The shortest head for a kind and a size. -/
def head (major : Major) (n : Nat) : Text :=
  let first (low : Nat) : UInt8 := UInt8.ofNat (major * 32 + low)
  if n < 24 then [first n]
  else if n < 256 then first 24 :: bigEndian 1 n
  else if n < 65536 then first 25 :: bigEndian 2 n
  else if n < 4294967296 then first 26 :: bigEndian 4 n
  else first 27 :: bigEndian 8 n

/-- The null value. -/
def null : Cbor := .simple 22

/-- A truth value. -/
def ofBool (b : Bool) : Cbor := .simple (if b then 21 else 20)

/-- A number. -/
def ofInt : Int → Cbor
  | .ofNat n => .nat n
  | .negSucc n => .negative n

/-- A text in one part. -/
def ofText (t : Text) : Cbor := .text [t]

/-- The order of encoded keys: shorter ones first, and keys of one length by their bytes. -/
def keyLe (a b : Text) : Bool := a.length < b.length || (a.length = b.length && Text.le a b)

mutual

/-- The bytes of an item in canonical form. -/
def encode : Cbor → Text
  | .nat n => head 0 n
  | .negative n => head 1 n
  | .bytes b => head 2 b.length ++ b
  | .text parts =>
    let t := Text.concat parts
    head 3 t.length ++ t
  | .array items => head 4 items.length ++ encodeAll items
  | .map pairs =>
    let sorted := (encodePairs pairs).mergeSort fun p q => keyLe p.1 q.1
    head 5 pairs.length ++ Text.concat (sorted.map fun p => p.1 ++ p.2)
  | .tagged tag item => head 6 tag ++ encode item
  | .simple n => if n < 32 then head 7 n else UInt8.ofNat 248 :: bigEndian 1 n
  | .float size bits =>
    UInt8.ofNat (224 + if size = 2 then 25 else if size = 4 then 26 else 27) :: bigEndian size bits

/-- The bytes of some items. -/
def encodeAll : List Cbor → Text
  | [] => []
  | x :: rest => encode x ++ encodeAll rest

/-- The bytes of some pairs, key and value apart. -/
def encodePairs : List (Cbor × Cbor) → List (Text × Text)
  | [] => []
  | (k, v) :: rest => (encode k, encode v) :: encodePairs rest

end

end Cbor

end CoordSplit
