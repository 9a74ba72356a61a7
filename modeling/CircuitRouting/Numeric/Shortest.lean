import CircuitRouting.Numeric.Binary64

/-!
# The fewest decimal digits that read back

`Decimal.shortest b` is the decimal with the fewest digits among those that round to `b`, and of
these the nearest to it. `Decimal.positional` writes a decimal without an exponent.
-/

namespace CircuitRouting

/-- The decimal number `digits * 10 ^ exponent`. -/
structure Decimal where
  digits : Nat
  exponent : Int
deriving Repr, DecidableEq

namespace Decimal

/-- How many decimal digits a number has. -/
def digitCount (n : Nat) : Nat :=
  (Nat.toDigits 10 n).length

-- The exponent of the leading decimal digit of `num / den`.
def leadingExponent (num den : Nat) : Int :=
  if den ≤ num then (digitCount (num / den) : Int) - 1
  else -(digitCount ((den + num - 1) / num - 1) : Int)

/--
The reals that round to a double lie between `low` and `high`, which belong to them if the
significand is even. All three numbers are in units of a quarter of the last binary place.
-/
structure Interval where
  low : Nat
  value : Nat
  high : Nat
  closed : Bool

/-- Below a power of two the neighbour is only half a place away. -/
def interval (b : Binary64) : Interval where
  low := 4 * b.significand -
    (if b.significand = Binary64.leadingBit ∧ Binary64.minExponent < b.exponent then 1 else 2)
  value := 4 * b.significand
  high := 4 * b.significand + 2
  closed := b.significand % 2 == 0

/-- `d` units of size `den / num` lie in the interval. -/
def Interval.contains (i : Interval) (num den d : Nat) : Bool :=
  if i.closed then i.low * num ≤ d * den && d * den ≤ i.high * num
  else i.low * num < d * den && d * den < i.high * num

-- The decimal of step `10 ^ p` that lies in the interval and nearest to its value, if any.
def onGrid? (b : Binary64) (p : Int) : Option Decimal :=
  let i := interval b
  let (twos, halves) := Binary64.powerOfTwo (b.exponent - 2)
  let num := twos * Nat.pow 10 (-p).toNat
  let den := halves * Nat.pow 10 p.toNat
  let below := i.value * num / den
  let above := below + 1
  let nearer := if 2 * (i.value * num) < (below + above) * den then below else above
  let farther := below + above - nearer
  if i.contains num den nearer then some ⟨nearer, p⟩
  else if i.contains num den farther then some ⟨farther, p⟩
  else none

/-- Tries ever finer grids, at most `fuel` of them. -/
def search (b : Binary64) : (fuel : Nat) → (p : Int) → Decimal
  | 0, p => ⟨0, p⟩
  | fuel + 1, p => (onGrid? b p).getD (search b fuel (p - 1))

/-- The fewest digits that round to `b`; seventeen always suffice. -/
def shortest (b : Binary64) : Decimal :=
  if b.significand = 0 then ⟨0, 0⟩
  else
    let (twos, halves) := Binary64.powerOfTwo b.exponent
    search b 18 (leadingExponent (b.significand * twos) halves)

-- Drops trailing zeros after the point, at most `fuel` of them.
def trim : (fuel : Nat) → Decimal → Decimal
  | 0, d => d
  | fuel + 1, d =>
    if d.exponent < 0 ∧ d.digits % 10 = 0 then trim fuel ⟨d.digits / 10, d.exponent + 1⟩ else d

/-- Zeros in a row. -/
def zeros (n : Nat) : String :=
  String.ofList (List.replicate n '0')

-- A decimal written without an exponent; a whole number has no point.
def positional (d : Decimal) : String :=
  let d := trim (digitCount d.digits) d
  let digits := toString d.digits
  if 0 ≤ d.exponent then
    if d.digits = 0 then "0" else digits ++ zeros d.exponent.toNat
  else
    let places := (-d.exponent).toNat
    if places < digits.length then
      let whole := digits.length - places
      String.ofList (digits.toList.take whole) ++ "." ++ String.ofList (digits.toList.drop whole)
    else "0." ++ zeros (places - digits.length) ++ digits

end Decimal

/-- The text of a double: the fewest digits that read back, without an exponent. -/
def floatText (x : Float) : String :=
  match Binary64.ofFloat? x with
  | some b => (if b.negative then "-" else "") ++ (Decimal.shortest b).positional
  | none => if x.isNaN then "NaN" else if x < 0 then "-inf" else "inf"

end CircuitRouting
