/-!
# Decimal/Power — powers of two and of ten

Binary numbers are scaled by `twoPow` and decimal ones by `tenPow`.
-/

namespace ManagementPlane

/-- The `n`-th power of two. -/
def twoPow (n : Nat) : Nat := Nat.pow 2 n

/-- The `n`-th power of ten. -/
def tenPow (n : Nat) : Nat := Nat.pow 10 n

end ManagementPlane
