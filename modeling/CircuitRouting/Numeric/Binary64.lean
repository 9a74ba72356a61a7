/-!
# Binary floating-point numbers, read exactly

A finite double is a sign, a whole significand and a power of two. The functions here move between
`Float` and that exact form, so that printing, reading and remainders can be computed in `Nat`.
-/

namespace CircuitRouting

/-- A finite double: `significand * 2 ^ exponent`, negated if `negative`. -/
structure Binary64 where
  negative : Bool
  significand : Nat
  exponent : Int
deriving Repr, DecidableEq

namespace Binary64

/-- The least exponent of a double, that of the subnormal numbers. -/
def minExponent : Int := -1074

/-- The leading bit of a normal significand. -/
def leadingBit : Nat := 0x10000000000000

/-- The bit of the sign. -/
def signBit : Nat := 0x8000000000000000

/-- The exact form of a double, if it is finite. -/
def ofFloat? (x : Float) : Option Binary64 :=
  let bits : Nat := x.toBits.toNat
  let field : Nat := bits / leadingBit % 2048
  let fraction : Nat := bits % leadingBit
  let negative := bits / signBit == 1
  if field = 2047 then none
  else if field = 0 then some ⟨negative, fraction, minExponent⟩
  else some ⟨negative, leadingBit + fraction, (field : Int) - 1075⟩

/-- The power of two `2 ^ e` as a fraction: numerator and denominator. -/
def powerOfTwo (e : Int) : Nat × Nat :=
  (Nat.pow 2 e.toNat, Nat.pow 2 (-e).toNat)

/-- The quotient `n / d`, rounded to the nearest whole number, a half to the even neighbour. -/
def roundHalfEven (n d : Nat) : Nat :=
  let q := n / d
  let r := n % d
  if d < 2 * r ∨ (d = 2 * r ∧ q % 2 = 1) then q + 1 else q

-- The quotient `num / den` in units of `2 ^ e`, as a fraction.
def inUnits (num den : Nat) (e : Int) : Nat × Nat :=
  (num * (powerOfTwo e).2, den * (powerOfTwo e).1)

-- The exponent at which `num / den` has a 53-bit significand, or the least exponent.
def unitExponent (num den : Nat) : Int :=
  let guess := max ((num.log2 : Int) - (den.log2 : Int) - 53) minExponent
  let (n, d) := inUnits num den guess
  if 2 * leadingBit ≤ n / d then guess + 1 else guess

/-- The bits of a double of significand `m` and exponent `e`; too large a value is infinite. -/
def bits (negative : Bool) (m : Nat) (e : Int) : Nat :=
  let magnitude :=
    if m < leadingBit then m else (e + 1075).toNat * leadingBit + (m - leadingBit)
  min magnitude (2047 * leadingBit) + if negative then signBit else 0

/-- The infinite double of a sign. -/
def infinity (negative : Bool) : Float :=
  Float.ofBits (2047 * leadingBit + if negative then signBit else 0).toUInt64

/-- The double nearest to `num / den`, a tie going to the even significand. -/
def nearest (negative : Bool) (num den : Nat) : Float :=
  let e := unitExponent num den
  let (n, d) := inUnits num den e
  let m := if num = 0 then 0 else roundHalfEven n d
  Float.ofBits (bits negative m e).toUInt64

/-- The double of this exact form. -/
def toFloat (b : Binary64) : Float :=
  let (p, q) := powerOfTwo b.exponent
  nearest b.negative (b.significand * p) q

end Binary64

end CircuitRouting
