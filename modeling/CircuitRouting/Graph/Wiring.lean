import CircuitRouting.Graph

/-!
# The edges of a graph by their ends

A wiring keeps the edges of a graph in two tables, by source and by target, so that following a wire
does not search the whole graph. It answers as the graph does.
-/

namespace CircuitRouting

/-- The edges at each number below `size`, in the order of the list. -/
def Edge.group (size : Nat) (side : Edge → Nat) (edges : List Edge) : Array (List Edge) :=
  edges.foldr (fun e table => table.modify (side e) (e :: ·)) (Array.replicate size [])

theorem Edge.getElem?_group (size : Nat) (side : Edge → Nat) (edges : List Edge) {n : Nat}
    (h : n < size) :
    (Edge.group size side edges)[n]? = some (edges.filter fun e => side e == n) := by
  induction edges with
  | nil => simp [group, h]
  | cons e es ih =>
    rw [group, List.foldr_cons, ← group, Array.getElem?_modify, ih]
    by_cases he : side e = n <;> simp [he]

theorem Edge.size_group (size : Nat) (side : Edge → Nat) (edges : List Edge) :
    (Edge.group size side edges).size = size := by
  induction edges with
  | nil => simp [group]
  | cons e es ih => rw [group, List.foldr_cons, ← group, Array.size_modify, ih]

structure Wiring where
  graph : Graph
  outs : Array (List Edge)
  ins : Array (List Edge)

namespace Graph

def wiring (g : Graph) : Wiring where
  graph := g
  outs := Edge.group g.slots.size Edge.source g.edges
  ins := Edge.group g.slots.size Edge.target g.edges

end Graph

namespace Wiring

variable (x : Wiring)

def instruction? (n : Nat) : Option Instruction := x.graph.instruction? n

def outgoing (n : Nat) : List Edge :=
  match x.outs[n]? with
  | some es => es
  | none => x.graph.outgoing n

def incoming (n : Nat) : List Edge :=
  match x.ins[n]? with
  | some es => es
  | none => x.graph.incoming n

def successor? (n : Nat) (w : Wire) : Option Nat :=
  ((x.outgoing n).find? fun e => e.wire == w).map Edge.target

def predecessor? (n : Nat) (w : Wire) : Option Nat :=
  ((x.incoming n).find? fun e => e.wire == w).map Edge.source

end Wiring

namespace Graph

variable (g : Graph) (n : Nat)

@[simp]
theorem wiring_graph : g.wiring.graph = g := rfl

@[simp]
theorem wiring_instruction? : g.wiring.instruction? n = g.instruction? n := rfl

@[simp]
theorem wiring_outgoing : g.wiring.outgoing n = g.outgoing n := by
  by_cases h : n < g.slots.size
  · simp [wiring, Wiring.outgoing, outgoing, Edge.getElem?_group _ _ _ h]
  · have : (Edge.group g.slots.size Edge.source g.edges)[n]? = none := by
      simp [Edge.size_group, Nat.le_of_not_lt h]
    simp [wiring, Wiring.outgoing, this]

@[simp]
theorem wiring_incoming : g.wiring.incoming n = g.incoming n := by
  by_cases h : n < g.slots.size
  · simp [wiring, Wiring.incoming, incoming, Edge.getElem?_group _ _ _ h]
  · have : (Edge.group g.slots.size Edge.target g.edges)[n]? = none := by
      simp [Edge.size_group, Nat.le_of_not_lt h]
    simp [wiring, Wiring.incoming, this]

@[simp]
theorem wiring_successor? (w : Wire) : g.wiring.successor? n w = g.successor? n w := by
  simp [Wiring.successor?, successor?, outgoing, List.find?_filter]
  rfl

@[simp]
theorem wiring_predecessor? (w : Wire) : g.wiring.predecessor? n w = g.predecessor? n w := by
  simp [Wiring.predecessor?, predecessor?, incoming, List.find?_filter]
  rfl

end Graph

end CircuitRouting
