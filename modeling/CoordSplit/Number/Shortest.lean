import CoordSplit.Number.BinaryFloat
import CoordSplit.Text.Basic

/-!
# Shortest decimals

The decimal with the fewest digits that reads back as a given binary number, and of those the one
nearest to it. Grids of 1, 2, 3, … significant digits are tried in turn: if any point of a grid reads
back as the number, so does one of the two neighbours of the number on that grid.
-/

set_option autoImplicit false

namespace CoordSplit

-- Powers are the built-in ones, whatever else is in scope.
attribute [local instance (2000)] instPowNat

/-- The decimal `0.d₁d₂d₃… * 10 ^ point`; zero has no digits. -/
structure Decimal where
  digits : List Nat
  point : Int
  deriving DecidableEq

namespace Decimal

/-- The digits of a number, most significant first. -/
def digitsOf (n : Nat) : List Nat := (Text.ofNat n).map fun b => b.toNat - 48

/-- The exponent of the greatest power of ten that is at most a positive quotient. -/
def floorLog10 (num den : Nat) : Int :=
  if den ≤ num then ((digitsOf (num / den)).length : Int) - 1
  else -((digitsOf ((den + num - 1) / num - 1)).length : Int)

/-- The decimal of a count of units `10 ^ exponent`, without trailing zeros. -/
def ofUnits (n : Nat) (exponent : Int) : Decimal :=
  let ds := digitsOf n
  ⟨(ds.reverse.dropWhile (· = 0)).reverse, ds.length + exponent⟩

/-- The interval of numbers that read back as the number `4 * m` units: its ends in units, and whether
they belong to it. -/
structure Interval where
  low : Nat
  high : Nat
  closed : Bool

/-- Whether a quotient lies in the interval. -/
def Interval.contains (i : Interval) (num den : Nat) : Bool :=
  if i.closed then i.low * den ≤ num && num ≤ i.high * den
  else i.low * den < num && num < i.high * den

/-- Tries grids of ever more digits. The number is `value` units of `num / den`, `top` the exponent of
its first digit, and `n` the number of digits of the first grid tried. -/
def search (value num den : Nat) (i : Interval) (top : Int) : Nat → Nat → Decimal
  | 0, _ => ⟨[], 0⟩
  | fuel + 1, n =>
    let e := top - n + 1
    let up := 10 ^ e.toNat
    let down := 10 ^ (-e).toNat
    -- one grid step is `up / down`; in units it is `up * den / (down * num)`
    let scaled := value * num * down
    let step := den * up
    let floor := scaled / step
    let fits := fun k : Nat => i.contains (k * step) (num * down)
    let lowFits := fits floor
    let highFits := fits (floor + 1)
    if lowFits && highFits then ofUnits (BinaryFormat.nearest scaled step) e
    else if lowFits then ofUnits floor e
    else if highFits then ofUnits (floor + 1) e
    else search value num den i top fuel (n + 1)

/-- The shortest decimal that reads back as the positive number `m * 2 ^ q`. -/
def shortest (m : Nat) (q : Int) (even narrow : Bool) : Decimal :=
  if m = 0 then ⟨[], 0⟩
  else
    -- a unit is a quarter of the gap to the next number
    let num := 2 ^ (q - 2).toNat
    let den := 2 ^ (2 - q).toNat
    let i : Interval := ⟨if narrow then 4 * m - 1 else 4 * m - 2, 4 * m + 2, even⟩
    search (4 * m) num den i (floorLog10 (4 * m * num) den) 20 1

end Decimal

end CoordSplit
