import CircuitRouting.Dag.Order

/-!
# Layers

A layer holds the operations whose predecessors are all in earlier layers. Operations of one layer
share no wire.
-/

namespace CircuitRouting

/--
An operation that waits for operations just before it: how many are missing, and those that it comes
just after. On unbroken wires the operations just before it are those that it comes just after.
-/
structure Pending where
  node : Nat
  depth : Nat
  lowest : Nat
  needed : Nat
  releasers : List Nat
deriving Repr

namespace Pending

/-- The order within a layer: by depth, then by lowest qubit, then by node. -/
def before (a b : Pending) : Bool :=
  a.depth < b.depth || (a.depth == b.depth && pairLt (a.lowest, a.node) (b.lowest, b.node))

/-- What is missing once a layer is there. -/
def release (layer : List Nat) (p : Pending) : Pending :=
  { p with needed := p.needed - p.releasers.countP layer.contains }

end Pending

-- The lowest qubit of an instruction; one without qubits comes after all others.
def Instruction.lowestQubit (i : Instruction) : Nat := (i.qubits.min?).getD (UInt32.size - 1)

namespace Wiring

variable (x : Wiring)

-- The operations just before an operation on its wires.
def opPredecessors (n : Nat) (i : Instruction) : List Nat :=
  sortUnique natLt <|
    (i.wires.filterMap (x.predecessor? n ·)).filter fun p => (x.instruction? p).isSome

-- The operations just after an operation on its wires.
def opSuccessors (n : Nat) (i : Instruction) : List Nat :=
  sortUnique natLt <|
    (i.wires.filterMap (x.successor? n ·)).filter fun p => (x.instruction? p).isSome

end Wiring

namespace Dag

variable (d : Dag)

-- The number of operations on the longest chain before each operation, in topological order.
def chainLengths : (ops : List (Nat × List Nat)) → (known : List (Nat × Nat)) → List (Nat × Nat)
  | [], known => known.reverse
  | (n, preds) :: rest, known =>
    let depth := (preds.filterMap fun p => known.lookup p).foldl (fun m k => max m (k + 1)) 0
    chainLengths rest ((n, depth) :: known)

def pending : List Pending :=
  let ops := d.topologicalOps
  let x := d.wiring
  let preds := ops.map fun (n, i) => (n, x.opPredecessors n i)
  let succs := ops.map fun (n, i) => (n, x.opSuccessors n i)
  let depths := chainLengths preds []
  (ops.zip (preds.zip depths)).map fun ((n, i), (_, ps), (_, depth)) => {
    node := n
    depth
    lowest := i.lowestQubit
    needed := ps.length
    releasers := (succs.filter fun s => s.2.contains n).map Prod.fst }

-- Takes at most `fuel` layers off the waiting operations.
def layersFrom : (fuel : Nat) → List Pending → List (List Nat)
  | 0, _ => []
  | fuel + 1, waiting =>
    let ready := waiting.filter fun p => p.needed == 0
    if ready.isEmpty then []
    else
      let layer := (sortUnique Pending.before ready).map Pending.node
      layer :: layersFrom fuel ((waiting.filter fun p => p.needed != 0).map (Pending.release layer))

/-- The layers of a circuit graph, each a list of operation nodes. -/
def layers : List (List Nat) := layersFrom d.pending.length d.pending

/-- The operands of the two-qubit gates among some nodes. -/
def pairsOf (nodes : List Nat) : List (Nat × Nat) :=
  nodes.filterMap fun n => (d.instruction? n).bind Instruction.pair?

end Dag

end CircuitRouting
