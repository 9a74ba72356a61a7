import CircuitRouting.Dag.Basic

/-!
# Orders of a circuit graph

The topological order, the operations along one wire, and the depth.
-/

namespace CircuitRouting

namespace Wiring

variable (x : Wiring)

-- Follows a wire from a node, through at most `fuel` operations.
def opsFrom (w : Wire) : (fuel : Nat) → (next : Option Nat) → List Nat
  | 0, _ => []
  | _, none => []
  | fuel + 1, some n =>
    if (x.instruction? n).isSome then n :: opsFrom w fuel (x.successor? n w) else []

-- The length of the longest chain of operations that ends in a node, for each node so far.
def deepen (depths : Array Nat) (n : Nat) : Array Nat :=
  let above := (x.incoming n).foldl (fun m e => max m (depths.getD e.source 0)) 0
  depths.setIfInBounds n (if (x.instruction? n).isSome then above + 1 else above)

end Wiring

namespace Dag

variable (d : Dag)

/-- All nodes, each before those it leads to, the lowest possible number always first. -/
def order : List Nat := d.graph.order

/-- The operations in topological order. -/
def topologicalOps : List (Nat × Instruction) :=
  d.order.filterMap fun n => (d.instruction? n).map (n, ·)

/-- The instructions in topological order. -/
def instructions : List Instruction := d.topologicalOps.map Prod.snd

-- The operation nodes along a wire, found in a wiring of the graph.
def wireOpsBy (x : Wiring) (w : Wire) : List Nat :=
  match d.ends? w with
  | none => []
  | some e => x.opsFrom w d.graph.slots.size (x.successor? e.input w)

/-- The operation nodes along a wire, from its input to its output. -/
def wireOps (w : Wire) : List Nat := d.wireOpsBy d.wiring w

/-- The length of the longest chain of operations. -/
def depth : Nat :=
  (d.order.foldl d.wiring.deepen (Array.replicate d.graph.slots.size 0)).foldl max 0

end Dag

end CircuitRouting
