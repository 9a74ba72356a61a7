import CircuitRouting.Pass.Basic

/-!
# Cancellation of controlled NOTs

Two controlled NOTs with the same control and target, one right after the other on both wires, undo
each other. Pairs are removed until none is left.
-/

namespace CircuitRouting

namespace Wiring

variable (x : Wiring)

-- The node that cancels a controlled NOT.
def partner? (n : Nat) (i : Instruction) : Option Nat :=
  match i.action, i.qubits with
  | .gate .cx, [c, t] =>
    match x.successor? n (.qubit c) with
    | none => none
    | some next =>
      if x.successor? n (.qubit t) = some next then
        match x.instruction? next with
        | some j => if j.isCx && j.qubits == i.qubits then some next else none
        | none => none
      else none
  | _, _ => none

-- Disjoint pairs of controlled NOTs that cancel, in topological order.
def cancellingPairs : (taken : List Nat) → List (Nat × Instruction) → List (Nat × Nat)
  | _, [] => []
  | taken, (n, i) :: rest =>
    if taken.contains n then cancellingPairs taken rest
    else
      match x.partner? n i with
      | none => cancellingPairs taken rest
      | some next =>
        if taken.contains next then cancellingPairs taken rest
        else (n, next) :: cancellingPairs (n :: next :: taken) rest

end Wiring

namespace Dag

variable (d : Dag)

def removals (pairs : List (Nat × Nat)) : List Revision :=
  pairs.flatMap fun (n, m) => [.remove n, .remove m]

-- Removes pairs in at most `fuel` rounds.
def cancelRounds : (fuel : Nat) → Dag → Except CircuitError Unit × Dag
  | 0, d => (.ok (), d)
  | fuel + 1, d =>
    match d.wiring.cancellingPairs [] d.topologicalOps with
    | [] => (.ok (), d)
    | pairs =>
      match reviseAll (removals pairs) d with
      | (.ok _, d) => cancelRounds fuel d
      | (.error e, d) => (.error e, d)

-- Removes pairs of controlled NOTs until none cancels.
def cancelCx : Except CircuitError Unit × Dag := cancelRounds (d.numOps + 1) d

end Dag

namespace Pass

def cancellation : Pass where
  name := "CancelCX"
  kind := .transformation
  run w := w.edit w.dag.cancelCx

end Pass

end CircuitRouting
