import CircuitRouting.Numeric.Sum

/-!
# Sources of random choices

Routing draws two kinds of choices: a position in a list of weights, and a number below a bound.
What it does is defined for every source of such choices, and the types keep them in range.
-/

namespace CircuitRouting

/-- A source of choices whose state is a `σ`. -/
structure Chooser (σ : Type) where
  weighted : (weights : List Nat) → 0 < natSum weights → σ → Fin weights.length × σ
  uniform : (n : Nat) → 0 < n → σ → Fin n × σ

end CircuitRouting
