import CircuitRouting.CouplingMap.Components
import CircuitRouting.Layers
import CircuitRouting.Pass.Basic
import CircuitRouting.Tabulation

/-!
# Placement of the qubits

A layout has to place every qubit of the circuit, and nothing else, on qubits of the device that are
joined among themselves. If none is given, one is grown: the gates of the first layer that has
two-qubit gates are put on edges, and the other qubits next to what is placed.
-/

namespace CircuitRouting

namespace Placement

/-- A device that a circuit is placed on: its neighbours in a table, the sizes of its components, and
the number of qubits that the circuit needs. -/
structure Ground where
  map : CouplingMap
  table : Array (List Nat)
  sizes : List Nat
  needed : Nat

namespace Ground

def of (m : CouplingMap) (needed : Nat) : Ground :=
  ⟨m, tabulate m.numQubits m.neighbors, m.componentSizes, needed⟩

variable (g : Ground)

/-- The neighbours of a qubit. -/
def near (q : Nat) : List Nat := lookup g.table g.map.neighbors q

def degree (q : Nat) : Nat := (g.near q).length

-- A qubit is better than another if it has a higher degree, or the same and a lower number.
def better (p q : Nat) : Bool :=
  g.degree q < g.degree p || (g.degree p == g.degree q && p < q)

-- The best of some qubits.
def best? : List Nat → Option Nat
  | [] => none
  | p :: ps => some (ps.foldl (fun best q => if g.better q best then q else best) p)

-- The qubit's component has room for the circuit.
def isRoomy (p : Nat) : Bool := g.needed ≤ g.sizes.getD p 0

-- A neighbour of the qubit is used.
def touches (used : List Nat) (p : Nat) : Bool := (g.near p).any used.contains

-- Both ends are free; the first edge needs room around it, a later one has to touch used qubits.
def isEligible (used : List Nat) (e : Nat × Nat) : Bool :=
  !used.contains e.1 && !used.contains e.2 &&
    if used.isEmpty then g.isRoomy e.1 else g.touches used e.1 || g.touches used e.2

-- The sum of the degrees of an edge's ends.
def score (e : Nat × Nat) : Nat := g.degree e.1 + g.degree e.2

-- The first of the eligible edges that have the highest score.
def bestEdge? (used : List Nat) : Option (Nat × Nat) :=
  match g.map.edges.filter (g.isEligible used) with
  | [] => none
  | e :: es => some (es.foldl (fun best e => if g.score best < g.score e then e else best) e)

-- The free qubits next to used ones, in ascending order.
def frontier (used : List Nat) : List Nat :=
  sortUnique natLt ((used.flatMap g.near).filter fun p => !used.contains p)

/-- Where the next qubit may be placed. -/
def candidates (used : List Nat) : List Nat :=
  if used.isEmpty then (List.range g.map.numQubits).filter g.isRoomy else g.frontier used

theorem near_of (m : CouplingMap) (needed q : Nat) : (of m needed).near q = m.neighbors q :=
  lookup_tabulate m.numQubits m.neighbors q

end Ground

/-- A layout under way, and the physical qubits in use. -/
structure Progress where
  layout : Layout := .empty
  used : List Nat := []

variable (g : Ground)

-- Puts pairs on edges one after the other, as long as there are any.
def placePairs : List (Nat × Nat) → Progress → Progress
  | [], s => s
  | (a, b) :: pairs, s =>
    match g.bestEdge? s.used with
    | none => s
    | some (p, q) => placePairs pairs ⟨(s.layout.place a p).place b q, q :: p :: s.used⟩

-- Places a qubit that has no place yet.
def placeQubit (s : Progress) (q : Nat) : Except CompileError Progress :=
  if (s.layout.physical? q).isSome then .ok s
  else
    match g.best? (g.candidates s.used) with
    | none => .error (.layoutDisconnected (sortUnique natLt s.used))
    | some p => .ok ⟨s.layout.place q p, p :: s.used⟩

-- The pairs of the first layer that has two-qubit gates.
def firstPairs (d : Dag) : List (Nat × Nat) :=
  ((d.layers.map d.pairsOf).find? fun pairs => !pairs.isEmpty).getD []

variable (m : CouplingMap)

-- Grows a layout for a circuit.
def grow (d : Dag) : Except CompileError Layout := do
  let g := Ground.of m d.numQubits
  return (← d.qubits.foldlM (placeQubit g) (placePairs g (firstPairs d) {})).layout

-- A pair of a layout names a qubit of the circuit and a qubit of the device.
def checkPair (d : Dag) (x : Nat × Nat) : Except CompileError Unit :=
  if !d.qubits.contains x.1 then .error (.invalidLayout (.notInCircuit x.1))
  else if m.numQubits ≤ x.2 then .error (.invalidLayout (.noSuchQubit x.2 m.numQubits))
  else .ok ()

/-- A layout places exactly the circuit's qubits, on joined qubits of the device. -/
def check (d : Dag) (lay : Layout) : Except CompileError Unit := do
  d.qubits.forM fun q => if (lay.physical? q).isSome then .ok () else .error (.layoutIncomplete q)
  lay.pairs.forM (checkPair m d)
  if !m.isConnectedSubset lay.occupied then throw (.layoutDisconnected lay.occupied)

-- The layout to route from: the given one or a grown one.
def choose (given : Option Layout) (d : Dag) : Except CompileError Layout := do
  if m.numQubits < d.numQubits then throw (.circuitTooLarge d.numQubits m.numQubits)
  let lay ← match given with
    | some lay => pure lay
    | none => grow m d
  check m d lay
  return lay

end Placement

namespace Pass

def placement (given : Option Layout) : Pass where
  name := "SetLayout"
  kind := .analysis
  run w := allOrNothing w do
    match w.properties.couplingMap with
    | none => throw .missingCouplingMap
    | some m =>
      let lay ← Placement.choose m given w.dag
      return { w with
        properties := { w.properties with
          layout := some lay
          published := w.properties.published.insert .initialLayout lay } }

end Pass

end CircuitRouting
