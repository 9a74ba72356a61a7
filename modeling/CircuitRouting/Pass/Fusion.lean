import CircuitRouting.Dag.Order
import CircuitRouting.Pass.Basic
import CircuitRouting.Unitary

/-!
# Fusion of one-qubit gates

Each run of one-qubit gates on a wire is replaced by a single gate, or by nothing if it multiplies
to the identity. A gate on its own stays as it is unless it is the identity.
-/

namespace CircuitRouting

namespace Gate

-- A matrix as one gate of the basis, up to a global phase; nothing for the identity.
def synthesize (basis : Basis) (u : Unitary) : Option Gate :=
  if u.isIdentity then none
  else
    let (theta, phi, lambda) := u.toU3
    if theta.abs < Unitary.epsilon && basis.contains "u1" then
      some (u1 (Angle.normalize (phi + lambda)))
    else if (theta - Angle.pi / 2).abs < Unitary.epsilon && basis.contains "u2" then
      some (u2 phi lambda)
    else some (u3 theta phi lambda)

end Gate

/-- A run of one-qubit gates on a wire, and its product. -/
structure GateRun where
  qubit : Nat
  nodes : List Nat
  product : Unitary

namespace GateRun

-- The run changes the circuit when it is fused.
def isFusable (r : GateRun) : Bool :=
  match r.nodes with
  | [] => false
  | [_] => r.product.isIdentity
  | _ => true

end GateRun

namespace Dag

variable (d : Dag)

-- The matrix of a node that is a one-qubit gate.
def unitary? (n : Nat) : Option Unitary :=
  ((d.instruction? n).filter Instruction.isOneQubitGate).bind fun i => i.gate?.bind Unitary.ofGate?

-- Cuts the nodes of a wire into its runs of one-qubit gates.
def runsFrom (q : Nat) : (current : List Nat) → Unitary → List Nat → List GateRun
  | current, u, [] => [⟨q, current, u⟩]
  | current, u, n :: rest =>
    match d.unitary? n with
    | some v => runsFrom q (current ++ [n]) (v * u) rest
    | none => ⟨q, current, u⟩ :: runsFrom q [] .identity rest

-- The runs that change the circuit, qubit after qubit.
def fusableRuns : List GateRun :=
  let x := d.wiring
  (d.qubits.flatMap fun q => d.runsFrom q [] .identity (d.wireOpsBy x (.qubit q))).filter
    GateRun.isFusable

-- The first node of a run makes way for the fused gate, and the others are removed.
def fusion (basis : Basis) (r : GateRun) : List Revision :=
  match r.nodes with
  | [] => []
  | first :: rest =>
    let fused := (Gate.synthesize basis r.product).map fun g => Instruction.gate g [r.qubit]
    .replace first fused.toList :: rest.map .remove

def fuseAll (basis : Basis) : Except CircuitError Unit × Dag :=
  reviseAll (d.fusableRuns.flatMap (fusion basis)) d

end Dag

namespace Pass

def fusion : Pass where
  name := "Optimize1qGates"
  kind := .transformation
  run w := w.edit (w.dag.fuseAll w.properties.targetBasis)

end Pass

end CircuitRouting
