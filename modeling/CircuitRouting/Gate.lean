/-!
# Gates

The gates of a circuit. Angles are bound numbers in radians.
-/

namespace CircuitRouting

inductive Gate where
  | id | x | y | z | h | s | sdg | t | tdg
  | rx (theta : Float)
  | ry (theta : Float)
  | rz (theta : Float)
  | u1 (lambda : Float)
  | u2 (phi lambda : Float)
  | u3 (theta phi lambda : Float)
  | cx | cz | swap
deriving Repr, BEq, Inhabited

/-- A name and a parameter list that are no gate. -/
inductive GateError where
  | unknown (name : String)
  | parameterCount (name : String) (expected got : Nat)
deriving Repr, DecidableEq

namespace Gate

def name : Gate → String
  | id => "id" | x => "x" | y => "y" | z => "z" | h => "h"
  | s => "s" | sdg => "sdg" | t => "t" | tdg => "tdg"
  | rx _ => "rx" | ry _ => "ry" | rz _ => "rz"
  | u1 _ => "u1" | u2 _ _ => "u2" | u3 _ _ _ => "u3"
  | cx => "cx" | cz => "cz" | swap => "swap"

/-- How many qubits the gate acts on. -/
def arity : Gate → Nat
  | cx | cz | swap => 2
  | _ => 1

def params : Gate → List Float
  | rx a | ry a | rz a | u1 a => [a]
  | u2 a b => [a, b]
  | u3 a b c => [a, b, c]
  | _ => []

-- How many parameters the gate of a name takes.
def paramCount? (name : String) : Option Nat :=
  if name ∈ ["id", "x", "y", "z", "h", "s", "sdg", "t", "tdg", "cx", "cz", "swap"] then some 0
  else if name ∈ ["rx", "ry", "rz", "u1"] then some 1
  else if name = "u2" then some 2
  else if name = "u3" then some 3
  else none

-- The gate of a name with the parameters it needs.
def ofName? : String → List Float → Option Gate
  | "id", [] => some id
  | "x", [] => some x
  | "y", [] => some y
  | "z", [] => some z
  | "h", [] => some h
  | "s", [] => some s
  | "sdg", [] => some sdg
  | "t", [] => some t
  | "tdg", [] => some tdg
  | "rx", [a] => some (rx a)
  | "ry", [a] => some (ry a)
  | "rz", [a] => some (rz a)
  | "u1", [a] => some (u1 a)
  | "u2", [a, b] => some (u2 a b)
  | "u3", [a, b, c] => some (u3 a b c)
  | "cx", [] => some cx
  | "cz", [] => some cz
  | "swap", [] => some swap
  | _, _ => none

/-- Reads a gate; an unknown name is reported before a wrong number of parameters. -/
def ofName (name : String) (params : List Float) : Except GateError Gate :=
  match ofName? name params with
  | some g => .ok g
  | none =>
    match paramCount? name with
    | none => .error (.unknown name)
    | some n => .error (.parameterCount name n params.length)

end Gate

end CircuitRouting
