import ManagementPlane.Decimal.Binary64

/-!
# Decimal/Numeral — what a written number means

A `Numeral` is a number as written: sign, whole digits, fraction and exponent.  Its digits are
gathered into a 64-bit significand; digits that no longer fit only move the decimal point.  The
significand is then scaled by a power of ten in double precision, each operation rounded once.
-/

namespace ManagementPlane

/-- A number as written. -/
structure Numeral where
  negative : Bool
  whole : List Nat
  /-- The digits after the point, when there is a point. -/
  fraction : Option (List Nat)
  /-- The sign of the exponent and its digits, when there is one. -/
  exponent : Option (Bool × List Nat)
  deriving DecidableEq, Repr

namespace Numeral

/-- Appends digits to `acc` while the result stays within `limit`; counts the digits taken. -/
def gather (limit : Nat) : Nat → List Nat → Nat × Nat
  | acc, [] => (acc, 0)
  | acc, d :: ds =>
    if acc * 10 + d ≤ limit then
      let (sum, taken) := gather limit (acc * 10 + d) ds
      (sum, taken + 1)
    else (acc, 0)

def significandLimit : Nat := UInt64.size - 1

def exponentLimit : Int := Int32.maxValue.toInt

/-- Keeps an exponent within 32 bits. -/
def clampExponent (e : Int) : Int := max (-exponentLimit - 1) (min e exponentLimit)

/-- `x * 10 ^ e` for a nonnegative `x`; `none` when the result is too large. -/
def scale (x : Binary64) (e : Int) : Option Binary64 :=
  if 308 < e then (if x.isZero then some x else none)
  else if 0 ≤ e then
    let r := x.mul (Binary64.pow10 e.toNat)
    if r.isFinite then some r else none
  else if -308 ≤ e then some (x.div (Binary64.pow10 (-e).toNat))
  else if -616 ≤ e then
    some ((x.div (Binary64.pow10 308)).div (Binary64.pow10 (-(e + 308)).toNat))
  else some Binary64.zero

/-- The meaning of a written number: an integer, a double, or too large to mean anything. -/
inductive Meaning
  | integer (i : Int)
  | double (x : Binary64)
  | overflow
  deriving DecidableEq, Repr

def signed (negative : Bool) : Option Binary64 → Meaning
  | none => .overflow
  | some x => .double (if negative then x.neg else x)

/-- A whole number within 64 signed bits is an integer; `-0` is not. -/
def wholeMeaning (negative : Bool) (n : Nat) : Meaning :=
  if negative then
    if n = 0 ∨ twoPow 63 < n then .double (Binary64.ofNat n).neg else .integer (-n)
  else if n < twoPow 63 then .integer n
  else .double (Binary64.ofNat n)

def meaning (n : Numeral) : Meaning :=
  let (whole, taken) := gather significandLimit 0 n.whole
  let dropped := n.whole.length - taken
  if n.fraction.isNone ∧ n.exponent.isNone ∧ dropped = 0 then wholeMeaning n.negative whole
  else
    let (digits, decimals) := gather significandLimit whole (n.fraction.getD [])
    let point : Int := (dropped : Int) - decimals
    match n.exponent with
    | none => signed n.negative (scale (.ofNat digits) point)
    | some (down, ds) =>
      let (e, read) := gather exponentLimit.toNat 0 ds
      if read < ds.length then
        if digits ≠ 0 ∧ !down then .overflow else signed n.negative (some .zero)
      else
        let shifted := clampExponent (if down then point - e else point + e)
        signed n.negative (scale (.ofNat digits) shifted)

end Numeral

end ManagementPlane
