import ManagementPlane.Decimal.Binary64

/-!
# Decimal/Shortest — the fewest digits that read back

The reals that round to a finite number form an interval around it.  `shortest` walks decimal
grids from coarse to fine and takes the first grid with a point in that interval; of two points the
nearer one, and of two equally near ones the even one.
-/

namespace ManagementPlane

/-- A decimal magnitude `digits * 10 ^ exponent`. -/
structure Decimal where
  digits : Nat
  exponent : Int
  deriving DecidableEq, Repr, Inhabited

namespace Decimal

/-- The same magnitude without trailing zeros; at most `fuel` of them are removed. -/
def trim : Nat → Decimal → Decimal
  | 0, d => d
  | fuel + 1, d =>
    if d.digits ≠ 0 ∧ d.digits % 10 = 0 then trim fuel ⟨d.digits / 10, d.exponent + 1⟩ else d

end Decimal

namespace Binary64

/-- The reals that round to a number, as numerators over one denominator. -/
structure Interval where
  low : Nat
  value : Nat
  high : Nat
  den : Nat
  /-- Whether the two ends round to the number as well. -/
  closed : Bool

/-- Below a power of two the neighbour is only half as far away, except at the subnormal end. -/
def interval (x : Binary64) : Interval :=
  let m := 4 * x.significand
  let below := if x.fraction = 0 ∧ 1 < x.biased then 1 else 2
  let e := x.exponent - 2
  let up := twoPow e.toNat
  { low := (m - below) * up
    value := m * up
    high := (m + 2) * up
    den := twoPow (-e).toNat
    closed := x.significand % 2 = 0 }

namespace Interval

/-- Whether `c * 10 ^ j` lies in the interval. -/
def contains (i : Interval) (c : Nat) (j : Int) : Bool :=
  let point := c * (i.den * tenPow j.toNat)
  let scale := tenPow (-j).toNat
  if i.closed then decide (i.low * scale ≤ point ∧ point ≤ i.high * scale)
  else decide (i.low * scale < point ∧ point < i.high * scale)

/-- The point of the grid of step `10 ^ j` that stands for the interval, if one lies in it. -/
def pointOn? (i : Interval) (j : Int) : Option Nat :=
  let scaled := i.value * tenPow (-j).toNat
  let step := i.den * tenPow j.toNat
  let c := scaled / step
  match i.contains c j, i.contains (c + 1) j with
  | false, false => none
  | true, false => some c
  | false, true => some (c + 1)
  | true, true =>
    let rest := 2 * (scaled % step)
    if rest < step then some c
    else if step < rest then some (c + 1)
    else if c % 2 = 0 then some c else some (c + 1)

/-- The first grid with a point in the interval, from step `10 ^ j` on down. -/
def firstPoint (i : Interval) : Nat → Int → Decimal
  | 0, j => ⟨i.value * tenPow (-j).toNat / (i.den * tenPow j.toNat), j⟩
  | fuel + 1, j =>
    match i.pointOn? j with
    | some c => ⟨c, j⟩
    | none => firstPoint i fuel (j - 1)

end Interval

/-- An exponent at or just above the decimal exponent of a positive number. -/
def decimalGuess (i : Interval) : Int :=
  ((i.value.log2 : Int) - (i.den.log2 : Int)) * 30103 / 100000 + 1

/-- The shortest decimal that reads back as a finite, nonzero magnitude. -/
def shortest (x : Binary64) : Decimal :=
  let i := x.interval
  (i.firstPoint 20 (decimalGuess i)).trim 20

end Binary64

end ManagementPlane
