/-!
# Sums of numbers
-/

namespace CircuitRouting

/-- The sum of a list of numbers. -/
def natSum : List Nat → Nat
  | [] => 0
  | n :: ns => n + natSum ns

@[simp]
theorem natSum_nil : natSum [] = 0 := rfl

@[simp]
theorem natSum_cons (n : Nat) (ns : List Nat) : natSum (n :: ns) = n + natSum ns := rfl

theorem natSum_append (ms ns : List Nat) : natSum (ms ++ ns) = natSum ms + natSum ns := by
  induction ms with
  | nil => simp
  | cons m ms ih => simp [ih, Nat.add_assoc]

end CircuitRouting
