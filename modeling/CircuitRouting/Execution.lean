import CircuitRouting.Compiler

/-!
# Execution of compiled circuits

Whatever runs compiled circuits reports how often each outcome was measured. The numbers have 64
bits and their sum wraps around.
-/

namespace CircuitRouting

/-- How often each outcome was measured. -/
abbrev Counts := List (String × UInt64)

inductive ExecutionError where
  | notCompiled (name : String)
  | shotMismatch (expected actual : UInt64)
  | backend (reason : String)
deriving Repr, DecidableEq

namespace ExecutionError

def message : ExecutionError → String
  | notCompiled name => s!"circuit '{name}' did not compile"
  | shotMismatch expected actual =>
    let expected := expected.toNat
    let actual := actual.toNat
    s!"counts sum to {actual} shots, expected {expected}"
  | backend reason => s!"execution failed: {reason}"

end ExecutionError

/-- Something that runs a compiled circuit for a number of shots. -/
abbrev Executor := CompiledCircuit → UInt64 → Except ExecutionError Counts

namespace Counts

/-- The sum of the counts, modulo `2 ^ 64`. -/
def total (cs : Counts) : UInt64 := (cs.map Prod.snd).foldl (· + ·) 0

/-- The counts, if they add up to the shots. -/
def check (shots : UInt64) (cs : Counts) : Except ExecutionError Counts :=
  if total cs = shots then .ok cs else .error (.shotMismatch shots (total cs))

end Counts

end CircuitRouting
