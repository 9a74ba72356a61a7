import CircuitRouting.Numeric.Shortest

/-!
# Reading decimals

The double nearest to a decimal, and the decimal texts of doubles.
-/

namespace CircuitRouting

namespace Decimal

/-- The double nearest to a decimal. Decimals far outside the range of doubles are not expanded. -/
def toFloat (negative : Bool) (d : Decimal) : Float :=
  let magnitude := (digitCount d.digits : Int) + d.exponent
  if d.digits = 0 ∨ magnitude < -400 then Binary64.nearest negative 0 1
  else if 400 < magnitude then Binary64.infinity negative
  else
    Binary64.nearest negative (d.digits * Nat.pow 10 d.exponent.toNat)
      (Nat.pow 10 (-d.exponent).toNat)

/-- The whole number written by decimal digits. -/
def ofDigits (cs : List Char) : Nat :=
  cs.foldl (fun n c => 10 * n + (c.toNat - '0'.toNat)) 0

-- An exponent: a mark, an optional sign and at least one digit, and nothing after it.
def readExponent? : List Char → Option Int
  | [] => some 0
  | mark :: rest =>
    if mark = 'e' ∨ mark = 'E' then
      let (sign, digits) := match rest with
        | '-' :: ds => (-1, ds)
        | '+' :: ds => (1, ds)
        | ds => ((1 : Int), ds)
      if digits.isEmpty ∨ !digits.all Char.isDigit then none else some (sign * ofDigits digits)
    else none

-- An unsigned decimal: digits with an optional point, of which one digit at least, and an
-- optional exponent.
def readUnsigned? (cs : List Char) : Option Decimal :=
  let whole := cs.takeWhile Char.isDigit
  let rest := cs.dropWhile Char.isDigit
  let (fraction, rest) := match rest with
    | '.' :: r => (r.takeWhile Char.isDigit, r.dropWhile Char.isDigit)
    | r => ([], r)
  if whole.isEmpty ∧ fraction.isEmpty then none
  else (readExponent? rest).map fun e => ⟨ofDigits (whole ++ fraction), e - fraction.length⟩

end Decimal

/-- Reads an optional sign and a decimal, or the names of infinity and of no number in any case. -/
def readFloat? (s : String) : Option Float :=
  let (negative, cs) := match s.toList with
    | '-' :: cs => (true, cs)
    | '+' :: cs => (false, cs)
    | cs => (false, cs)
  let word := String.ofList (cs.map Char.toLower)
  if word = "inf" ∨ word = "infinity" then some (Binary64.infinity negative)
  else if word = "nan" then some (0.0 / 0.0)
  else (Decimal.readUnsigned? cs).map (Decimal.toFloat negative)

end CircuitRouting
