import CircuitRouting.Numeric.Reading

/-!
# Whole numbers as text

A number is a sign `+` or none, and digits. The fault that comes first from the left is reported.
-/

namespace CircuitRouting

inductive WholeError where
  | empty
  | invalidDigit
  | tooLarge
deriving Repr, DecidableEq

namespace WholeError

def message : WholeError → String
  | empty => "cannot parse integer from empty string"
  | invalidDigit => "invalid digit found in string"
  | tooLarge => "number too large to fit in target type"

end WholeError

namespace Whole

-- Appends digits to a number that stays below `bound`.
def readDigits (bound : Nat) : (n : Nat) → List Char → Except WholeError Nat
  | n, [] => .ok n
  | n, c :: cs =>
    if !c.isDigit then .error .invalidDigit
    else
      let m := 10 * n + Decimal.ofDigits [c]
      if bound ≤ m then .error .tooLarge else readDigits bound m cs

/-- Reads a number below `bound`. -/
def read (bound : Nat) (s : String) : Except WholeError Nat :=
  match s.toList with
  | [] => .error .empty
  | ['+'] => .error .invalidDigit
  | '+' :: cs => readDigits bound 0 cs
  | cs => readDigits bound 0 cs

end Whole

end CircuitRouting
