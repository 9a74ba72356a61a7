import CircuitRouting.Numeric.Reading

/-!
# Number literals of JSON

A literal is kept as a significand of 64 bits and a power of ten. Digits that do not fit into the
significand are dropped; those before the point count in the power. The double of a literal is the
significand times or divided by the power, each rounded, so that it is the nearest double for literals
of up to fifteen digits and may be a neighbour of it for longer ones.
-/

namespace CircuitRouting

namespace Json

/-- A number literal. `integral` says that it has neither a fraction nor an exponent. -/
structure Number where
  negative : Bool
  value : Decimal
  integral : Bool
deriving Repr, DecidableEq

namespace Number

def ofNat (n : Nat) : Number := ⟨false, ⟨n, 0⟩, true⟩

def ofInt (n : Int) : Number := ⟨n < 0, ⟨n.natAbs, 0⟩, true⟩

-- Appends digits to a significand as long as it fits into 64 bits; also how many were taken.
def gather : (significand : Nat) → List Char → Nat × Nat
  | s, [] => (s, 0)
  | s, c :: cs =>
    let t := 10 * s + Decimal.ofDigits [c]
    if t < UInt64.size then
      let (u, taken) := gather t cs
      (u, taken + 1)
    else (s, 0)

/-- The literal with the given digits before and after the point. -/
def ofParts (negative : Bool) (whole : List Char) (fraction : Option (List Char))
    (exponent : Option Int) : Number :=
  let (s, before) := gather 0 whole
  let (s, after) := gather s (fraction.getD [])
  let dropped := whole.length - before
  ⟨negative, ⟨s, exponent.getD 0 + dropped - after⟩, fraction.isNone && exponent.isNone⟩

/-- A whole number literal below `2 ^ 64` without a minus sign. -/
def nat? (n : Number) : Option Nat :=
  if n.integral && !n.negative && n.value.exponent == 0 then some n.value.digits else none

/-- A whole number literal; minus zero is none. -/
def int? (n : Number) : Option Int :=
  if !n.integral || n.value.exponent != 0 then none
  else if n.negative then
    if n.value.digits = 0 then none else some (-(n.value.digits : Int))
  else some n.value.digits

-- The largest power of ten that is a double.
def maxPower : Nat := 308

def tenTo (n : Nat) : Float := Decimal.toFloat false ⟨1, n⟩

-- A double times a power of ten, in steps; none if the product is too large. After `steps`
-- divisions by the largest power nothing is left of the number.
def scaled : (steps : Nat) → Float → Int → Option Float
  | 0, _, _ => some 0
  | steps + 1, x, e =>
    if e.natAbs ≤ maxPower then
      if 0 ≤ e then
        let y := x * tenTo e.natAbs
        if y.isInf then none else some y
      else some (x / tenTo e.natAbs)
    else if x == 0 then some x
    else if 0 ≤ e then none
    else scaled steps (x / tenTo maxPower) (e + maxPower)

/-- The double that a literal stands for, unless it is too large for one. -/
def float? (n : Number) : Option Float :=
  (scaled 4 (Decimal.toFloat false ⟨n.value.digits, 0⟩) n.value.exponent).map fun x =>
    if n.negative then -x else x

end Number

end Json

end CircuitRouting
