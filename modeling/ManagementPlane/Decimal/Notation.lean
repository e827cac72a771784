import ManagementPlane.Decimal.Shortest

/-!
# Decimal/Notation — how a number is written

`Binary64.chars` writes the shortest digits: positionally while the decimal point falls within
sixteen digits or at most four zeros after it, and with a signed exponent otherwise.  A positional
number always shows a fractional part.  `Binary64.positional` knows no exponent and shows a
fractional part only where there is one.
-/

namespace ManagementPlane

namespace Decimal

/-- The digits of a natural number, most significant first. -/
def digitChars (n : Nat) : List Char := (toString n).toList

/-- One digit, then the others behind a point, then the exponent with its sign. -/
def scientific (ds : List Char) (point : Int) : List Char :=
  let mantissa := match ds with
    | [] => []
    | [d] => [d]
    | d :: rest => d :: '.' :: rest
  let e := point - 1
  mantissa ++ 'e' :: (if e < 0 then '-' else '+') :: digitChars e.natAbs

/-- Writes a decimal magnitude; `point` counts the digits before the decimal point. -/
def chars (d : Decimal) : List Char :=
  let ds := digitChars d.digits
  let point := (ds.length : Int) + d.exponent
  if 0 ≤ d.exponent ∧ point ≤ 16 then
    ds ++ List.replicate d.exponent.toNat '0' ++ ['.', '0']
  else if 0 < point ∧ point ≤ 16 then
    ds.take point.toNat ++ '.' :: ds.drop point.toNat
  else if -5 < point ∧ point ≤ 0 then
    '0' :: '.' :: (List.replicate (-point).toNat '0' ++ ds)
  else scientific ds point

end Decimal

/-- The text of a number; what is not finite has none of its own and is written as `null`. -/
def Binary64.chars (x : Binary64) : List Char :=
  if !x.isFinite then ['n', 'u', 'l', 'l']
  else
    let magnitude := if x.isZero then ['0', '.', '0'] else x.shortest.chars
    if x.negative then '-' :: magnitude else magnitude

/-- All digits before and behind the point, of a decimal magnitude. -/
def Decimal.positional (d : Decimal) : List Char :=
  let ds := digitChars d.digits
  let point := (ds.length : Int) + d.exponent
  if 0 ≤ d.exponent then ds ++ List.replicate d.exponent.toNat '0'
  else if 0 < point then ds.take point.toNat ++ '.' :: ds.drop point.toNat
  else '0' :: '.' :: (List.replicate (-point).toNat '0' ++ ds)

/-- A finite number without an exponent. -/
def Binary64.positional (x : Binary64) : List Char :=
  let magnitude := if x.isZero then ['0'] else x.shortest.positional
  if x.negative then '-' :: magnitude else magnitude

end ManagementPlane
