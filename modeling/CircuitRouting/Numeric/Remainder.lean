import CircuitRouting.Numeric.Binary64

/-!
# Exact remainders

The remainder of two doubles is a double, so it is computed without rounding.
-/

namespace CircuitRouting

namespace Binary64

-- The remainder of the magnitudes of `a` by `b`, with the sign of `a`.
def remainder (a b : Binary64) : Binary64 :=
  let e := min a.exponent b.exponent
  let scaled (x : Binary64) := x.significand * Nat.pow 2 (x.exponent - e).toNat
  ⟨a.negative, scaled a % scaled b, e⟩

end Binary64

/-- The remainder of `x` by a positive `y` that is not negative; no number if `x` is not finite. -/
def euclideanRemainder (x y : Float) : Float :=
  match Binary64.ofFloat? x, Binary64.ofFloat? y with
  | some a, some b =>
    let r := (a.remainder b).toFloat
    if r < 0 then r + y else r
  | _, _ => 0.0 / 0.0

end CircuitRouting
