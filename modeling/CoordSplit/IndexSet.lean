import CoordSplit.Fault

/-!
# Sets of small natural numbers

Sets of slots and of instruction ids are kept in words of 64 bits: `k` is a member iff bit `k % 64` of word
`k / 64` is set. A set has as many words as its keys have asked for. Taking a key away leaves its word
behind, so sets with the same members may have different numbers of words. Everything but the number of
words is read off the members: words that are missing count as zero, and those that are zero at the end are
not part of the key.
-/

set_option autoImplicit false

namespace CoordSplit

/-- A finite set of natural numbers. -/
structure IndexSet where
  /-- The words, lowest first. -/
  words : List UInt64

namespace IndexSet

/-! ## Words -/

/-- The word in which only bit `j` is set. -/
def bit (j : Nat) : UInt64 := 1 <<< UInt64.ofNat j

/-- The number of bits that are set in a word. -/
def onesCount (w : UInt64) : Nat := (List.range 64).countP w.toNat.testBit

/-- The least bit that is set in a word, or 64. -/
def trailingZeros (w : UInt64) : Nat := ((List.range 64).find? w.toNat.testBit).getD 64

/-- The bits that are set in a word, least first. Each is taken out of the word when it is met; the first
argument bounds their number. -/
def wordBits : Nat → UInt64 → List Nat
  | 0, _ => []
  | n + 1, w =>
    if w = 0 then []
    else trailingZeros w :: wordBits n (w &&& ~~~ bit (trailingZeros w))

/-- Words with room for the word at index `i`. -/
def grow (ws : List UInt64) (i : Nat) : List UInt64 := ws ++ List.replicate (i + 1 - ws.length) 0

/-- The words `ws`, the first of which belongs at index `i`, put into others. -/
def uniteWords : Nat → List UInt64 → List UInt64 → List UInt64
  | _, [], rs => rs
  | i, w :: ws, rs => uniteWords (i + 1) ws (rs.modify i (· ||| w))

/-- The same with words that may have to grow, and whether any of them changed. Zero words are passed over,
so nothing grows for them. -/
def mergeWords : Nat → List UInt64 → List UInt64 × Bool → List UInt64 × Bool
  | _, [], r => r
  | i, w :: ws, (rs, changed) =>
    if w = 0 then mergeWords (i + 1) ws (rs, changed)
    else
      let rs := grow rs i
      let old := rs.getD i 0
      if old ||| w = old then mergeWords (i + 1) ws (rs, changed)
      else mergeWords (i + 1) ws (rs.set i (old ||| w), true)

/-- Words without those at the end that are zero. -/
def trim (ws : List UInt64) : List UInt64 := (ws.reverse.dropWhile (· = 0)).reverse

/-! ## Building sets -/

/-- The set without members, for which nothing is allocated. -/
def empty : IndexSet := ⟨[]⟩

instance : EmptyCollection IndexSet := ⟨empty⟩

instance : Inhabited IndexSet := ⟨empty⟩

/-- Whether an integer is a member; a negative one never is. -/
def contains (s : IndexSet) : Int → Bool
  | .ofNat k =>
    match s.words[k / 64]? with
    | some w => w &&& bit (k % 64) ≠ 0
    | none => false
  | .negSucc _ => false

/-- Membership of a natural number. -/
instance : Membership Nat IndexSet := ⟨fun s k => s.contains k = true⟩

/-- The set with one more member. -/
def insert (s : IndexSet) (k : Nat) : IndexSet :=
  ⟨(grow s.words (k / 64)).modify (k / 64) (· ||| bit (k % 64))⟩

/-- The set with one more member; a negative key is a fault. -/
def insert? (s : IndexSet) : Int → Except Fault IndexSet
  | .ofNat k => .ok (s.insert k)
  | .negSucc _ => .error .key

/-- The set with exactly one member. -/
def singleton (k : Nat) : IndexSet := empty.insert k

/-- The set of the given keys; a negative key is a fault. -/
def ofList? (keys : List Int) : Except Fault IndexSet := keys.foldlM insert? empty

/-- The set without a member; its word stays. A negative key is a fault, unless it would lie in the first
word and there is none. -/
def erase? (s : IndexSet) : Int → Except Fault IndexSet
  | .ofNat k => .ok ⟨s.words.modify (k / 64) (· &&& ~~~ bit (k % 64))⟩
  | .negSucc k => if k < 63 ∧ s.words = [] then .ok s else .error .key

/-- The members of either set: the words of the shorter one are put into those of the longer one. -/
def union (s t : IndexSet) : IndexSet :=
  if s.words.length < t.words.length then ⟨uniteWords 0 s.words t.words⟩
  else ⟨uniteWords 0 t.words s.words⟩

/-- The first set with the members of the second, and whether it grew. -/
def merge (s t : IndexSet) : IndexSet × Bool :=
  let (ws, changed) := mergeWords 0 t.words (s.words, false)
  (⟨ws⟩, changed)

/-! ## Asking sets -/

/-- Whether the sets share a member. Words that only one of them has are not looked at. -/
def intersects (s t : IndexSet) : Bool := (s.words.zip t.words).any fun p => p.1 &&& p.2 ≠ 0

/-- Whether the sets have the same members. A word that only one of them has must be zero. -/
def equal (s t : IndexSet) : Bool :=
  (List.range (max s.words.length t.words.length)).all fun i => s.words.getD i 0 = t.words.getD i 0

/-- Whether the set has no member. -/
def isEmpty (s : IndexSet) : Bool := s.words.all (· = 0)

/-- The members in ascending order. -/
def toList (s : IndexSet) : List Nat :=
  s.words.zipIdx.flatMap fun p => (wordBits 64 p.1).map fun j => 64 * p.2 + j

/-- The number of members. -/
def size (s : IndexSet) : Nat := s.words.foldl (fun n w => n + onesCount w) 0

/-- The least member, or `-1`. -/
def first (s : IndexSet) : Int :=
  match s.words.zipIdx.find? fun p => p.1 ≠ 0 with
  | some (w, i) => (64 * i + trailingZeros w : Nat)
  | none => -1

/-- The number of members below `k`. -/
def countBelow (s : IndexSet) (k : Int) : Nat := s.toList.countP fun (m : Nat) => (m : Int) < k

/-- The members visited by a walk in ascending order that stops at `k`. -/
def upTo (s : IndexSet) (k : Int) : List Nat :=
  let below := s.toList.takeWhile fun (m : Nat) => (m : Int) ≠ k
  below ++ (s.toList.drop below.length).take 1

/-- A text that two sets share iff they have the same members: the hexadecimal words up to the last that is
not zero, with a dot between neighbours. -/
def key (s : IndexSet) : Text := Text.join "." ((trim s.words).map fun w => Text.hex w.toNat)

/-- The members between braces, with a blank between neighbours. -/
def render (s : IndexSet) : Text :=
  "\x7b" ++ Text.join " " (s.toList.map Text.ofNat) ++ "\x7d"

end IndexSet

end CoordSplit
