/-!
# The hypotenuse in doubles

The square root of a sum of two squares, without overflow or loss on the way. A first root is
corrected by the part of the sum of squares that its rounding lost, so that the result is off by less
than one unit in its last place.
-/

namespace CircuitRouting

namespace Hypotenuse

-- Powers of two between which the squares of two numbers and their sum are exact enough.
def huge : Float := Float.scaleB 1 511

def tiny : Float := Float.scaleB 1 (-459)

-- The factor that brings numbers out of the range above `huge`, or its inverse those below `tiny`.
def shrink : Float := Float.scaleB 1 (-600)

-- A leg below this part of the other does not show in the hypotenuse.
def negligible : Float := Float.scaleB 1 (-54)

/-- The hypotenuse of legs `0 ≤ short ≤ long` whose squares are doubles of full precision. -/
def corrected (long short : Float) : Float :=
  let h := (long * long + short * short).sqrt
  let excess :=
    if h <= 2 * short then
      let delta := h - short
      long * (2 * delta - long) + (delta - 2 * (long - short)) * delta
    else
      let delta := h - long
      2 * delta * (long - 2 * short) + ((4 * delta - short) * short + delta * delta)
  h - excess / (2 * h)

/-- The hypotenuse of finite legs `0 ≤ short ≤ long`. -/
def ofLegs (long short : Float) : Float :=
  if long > huge then
    if short <= long * negligible then long + short
    else corrected (long * shrink) (short * shrink) / shrink
  else if short < tiny then
    if long >= short / negligible then long + short
    else corrected (long / shrink) (short / shrink) * shrink
  else if short <= long * negligible then long + short
  else corrected long short

end Hypotenuse

/-- The square root of `x * x + y * y`; infinite as soon as one of them is. -/
def hypotenuse (x y : Float) : Float :=
  if x.isInf || y.isInf then Float.abs (if x.isInf then x else y)
  else if x.isNaN || y.isNaN then x + y
  else if x.abs < y.abs then Hypotenuse.ofLegs y.abs x.abs
  else Hypotenuse.ofLegs x.abs y.abs

end CircuitRouting
