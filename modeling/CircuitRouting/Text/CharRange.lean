/-!
# Ranges of characters

Properties of characters are given as tables of ranges.
-/

namespace CircuitRouting

/-- The characters from `first` to `last`. -/
structure CharRange where
  first : Nat
  last : Nat
deriving Repr, DecidableEq

namespace CharRange

def covers (r : CharRange) (c : Char) : Bool := r.first ≤ c.toNat && c.toNat ≤ r.last

/-- Some range of a table covers the character. -/
def covered (table : List CharRange) (c : Char) : Bool := table.any fun r => r.covers c

end CharRange

end CircuitRouting
