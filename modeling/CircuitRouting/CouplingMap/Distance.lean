import CircuitRouting.CouplingMap.Basic
import CircuitRouting.Tabulation

/-!
# Distances on a device

A breadth-first search gives the distance of every reachable qubit and a shortest path to it. Among
paths of the same length the one found first is taken, where neighbours come in ascending order.
-/

namespace CircuitRouting

namespace CouplingMap

/-- A qubit that a search has reached, its distance, and the qubit it was reached from. -/
structure Visit where
  qubit : Nat
  distance : Nat
  parent : Nat
deriving Repr, DecidableEq

-- Visits the queue, at most `fuel` of it, and lists the visits in the order found. The qubits that
-- are on the list or in the queue have been seen.
def explore (next : Nat → List Nat) :
    (fuel : Nat) → (queue : List Visit) → (seen : List Nat) → List Visit
  | 0, queue, _ => queue
  | _, [], _ => []
  | fuel + 1, v :: queue, seen =>
    let fresh := (next v.qubit).filter fun q => !seen.contains q
    v :: explore next fuel (queue ++ fresh.map fun q => ⟨q, v.distance + 1, v.qubit⟩) (fresh ++ seen)

variable (m : CouplingMap)

-- The qubits reachable from `source` by steps of `next`, nearest first.
def searchBy (next : Nat → List Nat) (source : Nat) : List Visit :=
  explore next m.numQubits [⟨source, 0, source⟩] [source]

-- All qubits reachable from `source`, nearest first.
def searchFrom (source : Nat) : List Visit := m.searchBy m.neighbors source

-- What a search found out about a qubit.
def visit? (tree : List Visit) (q : Nat) : Option Visit := tree.find? fun v => v.qubit == q

/-- The number of steps between two qubits of the device, if one can be reached from the other. -/
def distance (a b : Nat) : Option Nat :=
  if a < m.numQubits then (visit? (m.searchFrom a) b).map Visit.distance else none

-- The path from the source of a search to `q`, in at most `fuel` steps, put before `rest`.
def climb (tree : List Visit) (source : Nat) :
    (fuel : Nat) → (q : Nat) → (rest : List Nat) → Option (List Nat)
  | 0, q, rest => if q = source then some (q :: rest) else none
  | fuel + 1, q, rest =>
    if q = source then some (q :: rest)
    else (visit? tree q).bind fun v => climb tree source fuel v.parent (q :: rest)

/-- A shortest path, both ends included. -/
def shortestPath (a b : Nat) : Option (List Nat) :=
  (m.distance a b).bind fun d => climb (m.searchFrom a) a d b []

end CouplingMap

/-- A device together with the distances from some of its qubits, so that each search runs once. -/
structure DistanceTable where
  map : CouplingMap
  rows : Array (Option (Array (Option Nat)))

namespace DistanceTable

-- The distances that a search found.
def row (n : Nat) (tree : List CouplingMap.Visit) : Array (Option Nat) :=
  tabulate n fun b => (CouplingMap.visit? tree b).map CouplingMap.Visit.distance

def build (m : CouplingMap) (sources : List Nat) : DistanceTable :=
  let next := lookup (tabulate m.numQubits m.neighbors) m.neighbors
  ⟨m, tabulate m.numQubits fun q =>
    if sources.contains q then some (row m.numQubits (m.searchBy next q)) else none⟩

/-- The distance on the device of the table. -/
def distance (t : DistanceTable) (a b : Nat) : Option Nat :=
  match t.rows[a]? with
  | some (some row) => lookup row (t.map.distance a) b
  | _ => t.map.distance a b

theorem distance_build (m : CouplingMap) (sources : List Nat) (a b : Nat) :
    (build m sources).distance a b = m.distance a b := by
  have next : lookup (tabulate m.numQubits m.neighbors) m.neighbors = m.neighbors :=
    funext (lookup_tabulate m.numQubits m.neighbors)
  rw [build, next]
  by_cases ha : a < m.numQubits
  · by_cases hs : sources.contains a
    · by_cases hb : b < m.numQubits <;>
        simp [distance, tabulate, lookup, row, CouplingMap.distance, CouplingMap.searchFrom, ha, hb,
          List.contains_iff_mem.1 hs]
    · have hs' : a ∉ sources := fun h => hs (List.contains_iff_mem.2 h)
      simp [distance, tabulate, ha, hs']
  · simp [distance, tabulate, ha]

end DistanceTable

end CircuitRouting
