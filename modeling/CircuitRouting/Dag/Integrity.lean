import CircuitRouting.Dag.Order
import CircuitRouting.Dag.Seating

/-!
# Integrity of a circuit graph

`Dag.verify` accepts a graph without cycles in which every wire leads from its input to its output
and every operation has one edge in and one edge out for each of its wires. Of several faulty wires
it names the one with the first seat, of several faulty operations the one with the lowest number.
-/

namespace CircuitRouting

namespace Wiring

variable (x : Wiring)

-- Follows a wire to its output, through at most `fuel` nodes.
def defectFrom? (w : Wire) (output : Nat) : (fuel : Nat) → Nat → Option Defect
  | 0, n => if n = output then none else some (.endless w)
  | fuel + 1, n =>
    if n = output then none
    else
      match x.successor? n w with
      | none => some (.brokenAfter w n)
      | some m => defectFrom? w output fuel m

def checkOp (n : Nat) (i : Instruction) : Except CircuitError Unit :=
  let incoming := (x.incoming n).length
  let outgoing := (x.outgoing n).length
  let wires := i.wires.length
  if incoming = wires ∧ outgoing = wires then .ok ()
  else .error (.invalidGraph (.edgeCount i.name n incoming outgoing wires))

end Wiring

namespace Dag

variable (d : Dag)

/-- The wires that do not lead from input to output, in the order in which they were added. -/
def wireDefects : List (Wire × Defect) :=
  let x := d.wiring
  let size := d.graph.nodes.length
  d.wires.filterMap fun e => (x.defectFrom? e.wire e.output size e.input).map (e.wire, ·)

/-- The seats of the wires, which were taken in the order in which the wires were added. -/
def seating : Seating := .ofWires (d.wires.map WireEnds.wire)

def checkWires : Except CircuitError Unit :=
  match d.wireDefects with
  | [] => .ok ()
  | (_, first) :: _ =>
    .error (.invalidGraph ((d.seating.wires.findSome? (d.wireDefects.lookup ·)).getD first))

def verify : Except CircuitError Unit := do
  if d.order.length ≠ d.graph.nodes.length then throw (.invalidGraph .cycle)
  d.checkWires
  let x := d.wiring
  d.opNodes.forM fun (n, i) => x.checkOp n i

end Dag

end CircuitRouting
