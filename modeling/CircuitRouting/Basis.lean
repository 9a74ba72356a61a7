/-!
# Bases

The basis of a device lists the names of the gates it runs.
-/

namespace CircuitRouting

inductive BasisError where
  | unsupported (gate : String)
  | listedTwice (gate : String)
  | missing (gate : String)
deriving Repr, DecidableEq

structure Basis where
  gates : List String
deriving Repr, DecidableEq

namespace Basis

-- The gates that a basis may list.
def supported : List String := ["u1", "u2", "u3", "cx", "id"]

/-- What every device runs. -/
def always : List String := ["measure", "barrier"]

/-- The gates that every basis has to list. -/
def required : List String := ["u3", "cx"]

end Basis

namespace BasisError

def message : BasisError → String
  | unsupported g =>
    s!"gate '{g}' cannot be targeted; supported gates are " ++ ", ".intercalate Basis.supported
  | listedTwice g => s!"gate '{g}' is listed twice"
  | missing g => s!"basis must contain '{g}'"

end BasisError

namespace Basis

/-- The basis that is used if none is given. -/
def standard : Basis := ⟨supported⟩

instance : Inhabited Basis := ⟨standard⟩

variable (b : Basis)

def contains (name : String) : Bool := always.contains name || b.gates.contains name

-- Checks the listed gates one after the other: each is known and new.
def checkListed : (seen : List String) → List String → Except BasisError Unit
  | _, [] => .ok ()
  | seen, g :: gs =>
    if !supported.contains g && !always.contains g then .error (.unsupported g)
    else if seen.contains g then .error (.listedTwice g)
    else checkListed (g :: seen) gs

/-- Checks that every circuit can be expressed in the basis. -/
def validate : Except BasisError Unit := do
  checkListed [] b.gates
  required.forM fun g => if b.contains g then .ok () else .error (.missing g)

end Basis

end CircuitRouting
