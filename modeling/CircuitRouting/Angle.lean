import CircuitRouting.Numeric.Reading
import CircuitRouting.Numeric.Remainder

/-!
# Angles

Angles are doubles in radians. `Angle.text` writes small multiples of π by name, and
`Angle.normalize` brings an angle into the half-open interval from -π to π.
-/

namespace CircuitRouting

namespace Angle

def pi : Float := 3.141592653589793

/-- How near to a multiple of π an angle has to be to be written as one. -/
def tolerance : Float := 1e-12

-- The denominators of the multiples of π that are written by name.
def denominators : List (Nat × Float) := [(1, 1), (2, 2), (4, 4), (8, 8)]

-- The whole numerator, at most eight, of an angle that is a multiple of `pi / d`.
def numerator? (value d : Float) : Option Float :=
  let multiple := value * d / pi
  let whole := multiple.round
  if whole != 0 && whole.abs <= 8 && (multiple - whole).abs < tolerance then some whole else none

-- A multiple of π: `pi`, `-3*pi`, `5*pi/8`.
def symbolic (whole : Float) (denominator : Nat) : String :=
  let sign := if whole < 0 then "-" else ""
  let head := if whole.abs == 1 then "pi" else floatText whole.abs ++ "*pi"
  if denominator = 1 then sign ++ head else sign ++ head ++ "/" ++ toString denominator

/-- The text of an angle: a small multiple of π, or the fewest digits that read back. -/
def text (value : Float) : String :=
  if value.abs < tolerance then "0"
  else
    (denominators.findSome? fun (n, d) => (numerator? value d).map (symbolic · n)).getD
      (floatText value)

/-- The same angle above -π and at most π; zero for what is no finite number. -/
def normalize (a : Float) : Float :=
  if !a.isFinite then 0
  else
    let r := euclideanRemainder a (2 * pi)
    if r > pi then r - 2 * pi else r

end Angle

end CircuitRouting
