import CircuitRouting.CouplingMap.Basic

/-!
# Connected components of a device

Whether some qubits are joined among themselves is found by merging: each of them starts as a block of
its own, and each edge merges the blocks of its two ends. The components of the whole device are found
by flooding: each qubit that has not been seen spreads to its neighbours, to theirs, and so on.
-/

namespace CircuitRouting

namespace CouplingMap

-- Merges the blocks that an edge touches.
def merge (blocks : List (List Nat)) (e : Nat × Nat) : List (List Nat) :=
  let touched := blocks.filter fun b => b.contains e.1 || b.contains e.2
  let others := blocks.filter fun b => !(b.contains e.1 || b.contains e.2)
  touched.flatten :: others

-- The components of the graph on the given members.
def blocks (members : List Nat) (edges : List (Nat × Nat)) : List (List Nat) :=
  (edges.filter fun (a, b) => members.contains a && members.contains b).foldl merge
    (members.map fun q => [q])

variable (m : CouplingMap)

/-- The qubits exist and are joined among themselves; no qubits at all are. -/
def isConnectedSubset (qubits : List Nat) : Bool :=
  qubits.all (· < m.numQubits) && (blocks (sortUnique natLt qubits) m.edges).length ≤ 1

-- The qubits of the queue, which have been seen, and those that they spread to, at most `fuel` of the
-- queue being visited.
def flood : (fuel : Nat) → (queue : List Nat) → (seen : List Nat) → List Nat
  | 0, queue, _ => queue
  | _, [], _ => []
  | fuel + 1, q :: queue, seen =>
    let fresh := (m.neighbors q).filter fun p => !seen.contains p
    q :: flood fuel (queue ++ fresh) (fresh ++ seen)

-- Floods from each start that has not been seen.
def floodAll : (starts : List Nat) → (seen : List Nat) → List (List Nat)
  | [], _ => []
  | start :: starts, seen =>
    if seen.contains start then floodAll starts seen
    else
      let members := m.flood m.numQubits [start] (start :: seen)
      members :: floodAll starts (members ++ seen)

def components : List (List Nat) := m.floodAll (List.range m.numQubits) []

/-- The size of each qubit's component, in the order of the qubits. -/
def componentSizes : List Nat :=
  let cs := m.components
  (List.range m.numQubits).map fun q =>
    match cs.find? fun b => b.contains q with
    | some b => b.length
    | none => 0

end CouplingMap

end CircuitRouting
