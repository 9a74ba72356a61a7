import CircuitRouting.Pass.Expansion

/-!
# Orientation of controlled NOTs

A controlled NOT that the device runs only the other way around is turned by Hadamard gates on both
qubits.
-/

namespace CircuitRouting

namespace Instruction

-- A controlled NOT by the one in the other direction, where `turn` is the Hadamard gate.
def reversedCx (turn : Gate) (control target : Nat) : List Instruction :=
  [gate turn [control], gate turn [target], cx target control, gate turn [control],
    gate turn [target]]

end Instruction

namespace Dag

variable (m : CouplingMap) (turn : Gate)

-- The controlled NOTs with their operands, in the order of their nodes.
def cxNodes (d : Dag) : List (Nat × Nat × Nat) :=
  d.opNodes.filterMap fun (n, i) =>
    if i.isCx then some (n, i.qubits.getD 0 0, i.qubits.getD 1 0) else none

-- Turns the controlled NOTs that need it, up to the first that the device runs neither way.
def orient : List (Nat × Nat × Nat) → Dag → Except CompileError Unit × Dag
  | [], d => (.ok (), d)
  | (n, c, t) :: rest, d =>
    if m.hasEdge c t then orient rest d
    else if m.hasEdge t c then
      match d.substitute n (Instruction.reversedCx turn c t) with
      | .ok (_, d) => orient rest d
      | .error e => (.error (.circuit e), d)
    else (.error (.unsupportedConnection c t), d)

end Dag

namespace Pass

def direction : Pass where
  name := "DirectionMapper"
  kind := .transformation
  shouldRun w := w.properties.couplingMap.isSome && w.dag.level == .physical
  run w :=
    match w.properties.couplingMap with
    | none => (.error .missingCouplingMap, w)
    | some m =>
      let (r, d) := Dag.orient m (.hadamard w.properties.targetBasis) w.dag.cxNodes w.dag
      (r, { w with dag := d })

end Pass

end CircuitRouting
