import ManagementPlane.Decimal.Power

/-!
# Decimal/Binary64 — double precision numbers as bit patterns, with exact rounding

A number is its 64 bits: a sign, 11 exponent bits and 52 fraction bits.  A finite magnitude is
`significand * 2 ^ exponent`, and every operation computes the exact rational result and rounds it
once with `ofRatio`, to nearest with ties to the even significand.  Nothing here uses machine
arithmetic, so each result can be computed inside a proof.
-/

namespace ManagementPlane

/-- A double precision number, held as its bit pattern. -/
structure Binary64 where
  bits : UInt64
  deriving DecidableEq, Repr, Inhabited

namespace Binary64

/-! ## Reading a bit pattern -/

/-- The sign bit. -/
def negative (x : Binary64) : Bool := decide (twoPow 63 ≤ x.bits.toNat)

/-- The biased exponent: `0` marks zero and the subnormals, `2047` infinity and NaN. -/
def biased (x : Binary64) : Nat := x.bits.toNat / twoPow 52 % twoPow 11

def fraction (x : Binary64) : Nat := x.bits.toNat % twoPow 52

def significand (x : Binary64) : Nat :=
  if x.biased = 0 then x.fraction else twoPow 52 + x.fraction

/-- The exponent of the last bit of the significand. -/
def exponent (x : Binary64) : Int :=
  if x.biased = 0 then -1074 else (x.biased : Int) - 1075

def isFinite (x : Binary64) : Bool := decide (x.biased ≠ 2047)

/-- Whether the bits stand for no number at all. -/
def isNaN (x : Binary64) : Bool := decide (x.biased = 2047) && decide (x.fraction ≠ 0)

/-- Either zero. -/
def isZero (x : Binary64) : Bool := decide (x.biased = 0) && decide (x.fraction = 0)

/-- Numeric equality: the two zeros agree, and a NaN agrees with nothing. -/
def same (x y : Binary64) : Bool :=
  !x.isNaN && !y.isNaN && (decide (x = y) || (x.isZero && y.isZero))

/-! ## Rounding -/

/-- The integer nearest to `num / den`; a half goes to the even neighbour. -/
def roundHalfEven (num den : Nat) : Nat :=
  let floor := num / den
  let rest := num % den
  if 2 * rest < den then floor
  else if den < 2 * rest then floor + 1
  else if floor % 2 = 0 then floor else floor + 1

/-- The power of two that brings `num / den` to a 53-bit significand, no lower than the
subnormal grid. -/
def gridExponent (num den : Nat) : Int :=
  let guess : Int := (num.log2 : Int) - (den.log2 : Int) - 52
  let low := num * twoPow (-(guess + 52)).toNat < den * twoPow (guess + 52).toNat
  max (-1074) (if low then guess - 1 else guess)

/-- The bit pattern of the given sign and of a magnitude pattern, capped at infinity. -/
def ofMagnitude (neg : Bool) (magnitude : Nat) : Binary64 :=
  ⟨UInt64.ofNat ((if neg then twoPow 63 else 0) + min magnitude (2047 * twoPow 52))⟩

/-- The number nearest to `± num / den`.  A significand that rounds up to `2 ^ 53` carries into
the exponent field by itself, since the two fields are adjacent. -/
def ofRatio (neg : Bool) (num den : Nat) : Binary64 :=
  if num = 0 then ofMagnitude neg 0
  else
    let e := gridExponent num den
    let q := roundHalfEven (num * twoPow (-e).toNat) (den * twoPow e.toNat)
    ofMagnitude neg ((e + 1074).toNat * twoPow 52 + q)

def zero : Binary64 := ⟨0⟩

def ofNat (n : Nat) : Binary64 := ofRatio false n 1

/-- The double closest to an integer. -/
def ofInt (i : Int) : Binary64 := ofRatio (decide (i < 0)) i.natAbs 1

/-! ## Arithmetic -/

def neg (x : Binary64) : Binary64 := ⟨x.bits ^^^ (UInt64.ofNat (twoPow 63))⟩

/-- The product of two finite numbers. -/
def mul (x y : Binary64) : Binary64 :=
  let e := x.exponent + y.exponent
  ofRatio (x.negative != y.negative) (x.significand * y.significand * twoPow e.toNat)
    (twoPow (-e).toNat)

/-- The quotient of two finite numbers, the second not zero. -/
def div (x y : Binary64) : Binary64 :=
  let e := x.exponent - y.exponent
  ofRatio (x.negative != y.negative) (x.significand * twoPow e.toNat)
    (y.significand * twoPow (-e).toNat)

/-- The power of ten nearest to `10 ^ k`. -/
def pow10 (k : Nat) : Binary64 := ofNat (tenPow k)

end Binary64

end ManagementPlane
