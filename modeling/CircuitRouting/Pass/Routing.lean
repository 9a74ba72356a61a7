import CircuitRouting.CouplingMap.Components
import CircuitRouting.Layers
import CircuitRouting.Pass.Expansion
import CircuitRouting.Pass.SwapSearch
import CircuitRouting.Random.Sampling

/-!
# Routing

Routing turns a circuit on logical qubits into one on physical qubits. Before each layer it inserts
swaps until the operands of every two-qubit gate are neighbours. A layer for which no trial succeeds
is routed again, one operation at a time. Only the qubits that the layout occupies are touched.
-/

namespace CircuitRouting

/-- How hard routing tries: the number of trials, at least one, and the most swaps in a trial. -/
structure RoutingEffort where
  trials : Nat := 20
  swapCap : Option Nat := none
  tries : 0 < trials := by decide
deriving Repr, DecidableEq

namespace RoutingEffort

def standard : RoutingEffort := {}

/-- At least one trial. -/
def withTrials (e : RoutingEffort) (trials : Nat) : RoutingEffort :=
  { e with trials := max trials 1, tries := by omega }

/-- The most swaps in a trial, given the number of occupied qubits. -/
def cap (e : RoutingEffort) (occupied : Nat) : Nat := e.swapCap.getD (max (occupied * occupied) 4)

end RoutingEffort

namespace Routing

/-- What does not change while a circuit is routed. -/
structure Setting (σ : Type) where
  source : Dag
  chooser : Chooser σ
  region : DistanceTable
  candidates : List (Nat × Nat)
  trials : Nat
  cap : Nat

/-- How far routing has come. -/
structure Progress (σ : Type) where
  random : σ
  layout : Layout
  routed : Dag
  swaps : List SwapRecord := []

variable {σ : Type}

def physical (lay : Layout) (q : Nat) : Except CompileError Nat :=
  match lay.physical? q with
  | some p => .ok p
  | none => .error (.layoutIncomplete q)

/-- Where the operands of the two-qubit gates among some nodes are. -/
def positions (source : Dag) (lay : Layout) (nodes : List Nat) :
    Except CompileError SwapSearch.Positions :=
  (source.pairsOf nodes).mapM fun (a, b) => do
    let p ← physical lay a
    let q ← physical lay b
    return (p, q)

-- Inserts a swap in front of a layer.
def insertSwap (layer : Nat) (p : Progress σ) (e : Nat × Nat) : Except CompileError (Progress σ) := do
  let routed ← (p.routed.applyAll (Instruction.swapAsCx e.1 e.2)).mapError .circuit
  return { p with
    routed := routed
    layout := p.layout.swap e.1 e.2
    swaps := p.swaps ++ [⟨layer, e.1, e.2⟩] }

-- Appends the instruction of a node on physical qubits.
def emitNode (source : Dag) (p : Progress σ) (n : Nat) : Except CompileError (Progress σ) :=
  match source.instruction? n with
  | none => .ok p
  | some i => do
    let i ← i.mapQubitsM (physical p.layout)
    let (_, routed) ← (p.routed.apply i).mapError .circuit
    return { p with routed := routed }

-- Inserts swaps in front of a layer, then appends its nodes.
def commit (s : Setting σ) (layer : Nat) (nodes : List Nat) (p : Progress σ)
    (swaps : List (Nat × Nat)) : Except CompileError (Progress σ) := do
  let p ← swaps.foldlM (insertSwap layer) p
  nodes.foldlM (emitNode s.source) p

/-- Routes nodes that share no wire. If no trial succeeds, only the random state has changed. -/
def route (s : Setting σ) (layer : Nat) (nodes : List Nat) (p : Progress σ) :
    Except CompileError (Bool × Progress σ) := do
  let ps ← positions s.source p.layout nodes
  if SwapSearch.cost? s.region ps = some 0 then
    return (true, ← commit s layer nodes p [])
  else
    let (found, random) := SwapSearch.search s.chooser s.region s.candidates s.cap ps s.trials none
      p.random
    let p := { p with random := random }
    match found with
    | none => return (false, p)
    | some swaps => return (true, ← commit s layer nodes p swaps)

-- Routes one node, which has to succeed.
def routeAlone (s : Setting σ) (layer : Nat) (p : Progress σ) (n : Nat) :
    Except CompileError (Progress σ) := do
  match ← route s layer [n] p with
  | (true, p) => return p
  | (false, _) => throw (.routingFailed layer s.trials)

-- Routes a layer, at once or else one node after the other.
def routeLayer (s : Setting σ) (p : Progress σ) (layer : List Nat × Nat) :
    Except CompileError (Progress σ) := do
  match ← route s layer.2 layer.1 p with
  | (true, p) => return p
  | (false, p) => layer.1.foldlM (routeAlone s layer.2) p

-- What routing a circuit from a layout fixes at the start.
def setting (chooser : Chooser σ) (m : CouplingMap) (effort : RoutingEffort) (lay : Layout)
    (d : Dag) : Setting σ :=
  let region := m.induced lay.occupied
  { source := d
    chooser := chooser
    region := .build region lay.occupied
    candidates := region.undirectedEdges
    trials := effort.trials
    cap := effort.cap lay.occupied.length }

-- Routes a whole circuit from a layout.
def routeAll (chooser : Chooser σ) (random : σ) (m : CouplingMap) (effort : RoutingEffort)
    (lay : Layout) (d : Dag) : Except CompileError (Progress σ) := do
  if !m.isConnectedSubset lay.occupied then throw (.layoutDisconnected lay.occupied)
  d.layers.zipIdx.foldlM (routeLayer (setting chooser m effort lay d))
    { random := random
      layout := lay
      routed := Dag.ofWires (List.range m.numQubits) d.clbits .physical }

end Routing

namespace Pass

/-- Routing with choices from any source. -/
def routing {σ : Type} (chooser : Chooser σ) (random : σ) (effort : RoutingEffort) : Pass where
  name := "SwapMapper"
  kind := .transformation
  shouldRun w := w.properties.couplingMap.isSome
  run w := allOrNothing w do
    match w.properties.couplingMap, w.properties.layout with
    | none, _ => throw .missingCouplingMap
    | some _, none => throw .missingLayout
    | some m, some lay =>
      let p ← Routing.routeAll chooser random m effort lay w.dag
      return {
        dag := p.routed
        properties := { w.properties with
          layout := some p.layout
          published := w.properties.published.insert .swaps p.swaps } }

/-- Routing with the choices of a seed. -/
def routingWithSeed (seed : UInt64) (effort : RoutingEffort) : Pass :=
  routing Keystream.chooser (.ofSeed seed) effort

end Pass

end CircuitRouting
