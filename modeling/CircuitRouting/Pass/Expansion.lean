import CircuitRouting.Pass.Basic

/-!
# Expansion into the basis

Every gate that the basis lacks is written in gates that it has: a one-qubit gate by one of `u1`,
`u2` and `u3`, the others by controlled NOTs and Hadamard gates.
-/

namespace CircuitRouting

namespace Gate

-- `u1` and `u2` written as `u3` where the basis lacks them.
def native (basis : Basis) : Gate → Gate
  | u1 lambda => if basis.contains "u1" then u1 lambda else u3 0 0 lambda
  | u2 phi lambda => if basis.contains "u2" then u2 phi lambda else u3 (Angle.pi / 2) phi lambda
  | g => g

/-- The Hadamard gate in the basis. -/
def hadamard (basis : Basis) : Gate := native basis (u2 0 Angle.pi)

-- The rotation that a one-qubit gate other than the identity is.
def rotation : Gate → Gate
  | x => u3 Angle.pi 0 Angle.pi
  | y => u3 Angle.pi (Angle.pi / 2) (Angle.pi / 2)
  | z => u1 Angle.pi
  | h => u2 0 Angle.pi
  | s => u1 (Angle.pi / 2)
  | sdg => u1 (-(Angle.pi / 2))
  | t => u1 (Angle.pi / 4)
  | tdg => u1 (-(Angle.pi / 4))
  | rx theta => u3 theta (-(Angle.pi / 2)) (Angle.pi / 2)
  | ry theta => u3 theta 0 0
  | rz theta => u1 theta
  | g => g

end Gate

namespace Instruction

/-- A swap as three controlled NOTs. -/
def swapAsCx (a b : Nat) : List Instruction := [cx a b, cx b a, cx a b]

-- A gate in the basis: on its first qubit, or on its first two.
def unroll (basis : Basis) (g : Gate) (qubits : List Nat) : List Instruction :=
  let a := qubits.getD 0 0
  let b := qubits.getD 1 0
  match g with
  | .id => if basis.contains "id" then [gate .id [a]] else []
  | .cx => [cx a b]
  | .cz => [gate (.hadamard basis) [b], cx a b, gate (.hadamard basis) [b]]
  | .swap => swapAsCx a b
  | g => [gate (g.rotation.native basis) [a]]

-- What an instruction becomes: itself, or its expansion if the basis lacks its gate.
def expand (basis : Basis) (i : Instruction) : List Instruction :=
  match i.action with
  | .gate g => if basis.contains g.name then [i] else unroll basis g i.qubits
  | _ => [i]

end Instruction

namespace Dag

-- The circuit graph built anew, in topological order, from what its instructions become.
def expand (basis : Basis) (d : Dag) : Except CircuitError Dag :=
  (ofWires d.qubits d.clbits d.level).applyAll (d.instructions.flatMap (·.expand basis))

end Dag

namespace Pass

def expansion : Pass where
  name := "BasisTranslation"
  kind := .transformation
  run w := allOrNothing w do
    let d ← (w.dag.expand w.properties.targetBasis).mapError .circuit
    return { w with dag := d }

end Pass

end CircuitRouting
