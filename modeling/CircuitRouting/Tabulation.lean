/-!
# Tables of functions

A function on numbers whose values below a bound are kept in a table.
-/

namespace CircuitRouting

variable {α : Type}

-- The values of a function on the numbers below `n`.
def tabulate (n : Nat) (f : Nat → α) : Array α := ((List.range n).map f).toArray

/-- The value of a function at a number, from its table as far as that goes. -/
def lookup (table : Array α) (f : Nat → α) (i : Nat) : α :=
  match table[i]? with
  | some a => a
  | none => f i

theorem lookup_tabulate (n : Nat) (f : Nat → α) (i : Nat) : lookup (tabulate n f) f i = f i := by
  by_cases h : i < n <;> simp [lookup, tabulate, h]

end CircuitRouting
