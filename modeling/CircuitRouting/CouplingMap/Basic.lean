import CircuitRouting.Sorted

/-!
# Coupling maps

A coupling map lists the directed pairs of a device's qubits on which it runs a controlled NOT.
Routing ignores the direction; it matters only once the gates are oriented.
-/

namespace CircuitRouting

inductive CouplingError where
  | tooManyQubits (n : Nat)
  | selfLoop (q : Nat)
  | edgeOutside (a b n : Nat)
  | indexOutOfRange (q : Nat)
deriving Repr, DecidableEq

/-- A directed graph on the qubits below `numQubits`; the edges are sorted and not repeated. -/
structure CouplingMap where
  numQubits : Nat
  edges : List (Nat × Nat)
  inside : ∀ e ∈ edges, e.1 < numQubits ∧ e.2 < numQubits ∧ e.1 ≠ e.2
  sorted : edges.Pairwise (pairLt · ·)
deriving Repr, DecidableEq

instance : Inhabited CouplingMap := ⟨⟨0, [], by simp, .nil⟩⟩

namespace CouplingMap

/-- The largest device that is described. -/
def maxQubits : Nat := 4096

end CouplingMap

namespace CouplingError

def message : CouplingError → String
  | tooManyQubits n =>
    let limit := CouplingMap.maxQubits
    s!"{n} qubits exceeds the limit of {limit}"
  | selfLoop q => s!"self-loop on qubit {q}"
  | edgeOutside a b n => s!"edge ({a}, {b}) is outside a {n}-qubit device"
  | indexOutOfRange q => s!"qubit index {q} is out of range"

end CouplingError

namespace CouplingMap

/-- The map with these edges, in any order and repeated or not. -/
def build (n : Nat) (edges : List (Nat × Nat))
    (inside : ∀ e ∈ edges, e.1 < n ∧ e.2 < n ∧ e.1 ≠ e.2) : CouplingMap where
  numQubits := n
  edges := sortUnique pairLt edges
  inside e h := inside e (mem_of_mem_sortUnique h)
  sorted := pairLt_separating.pairwise_sortUnique edges

-- What is wrong with an edge on `n` qubits.
def edgeError? (n : Nat) (e : Nat × Nat) : Option CouplingError :=
  if e.1 = e.2 then some (.selfLoop e.1)
  else if n ≤ e.1 ∨ n ≤ e.2 then some (.edgeOutside e.1 e.2 n)
  else none

theorem inside_of_edgeError? {n : Nat} {e : Nat × Nat} (h : edgeError? n e = none) :
    e.1 < n ∧ e.2 < n ∧ e.1 ≠ e.2 := by
  simp only [edgeError?] at h
  split at h
  · simp at h
  · split at h
    · simp at h
    · omega

/-- The map on `n` qubits with these edges; the first edge that does not fit is reported. -/
def ofEdges (n : Nat) (edges : List (Nat × Nat)) : Except CouplingError CouplingMap :=
  if maxQubits < n then .error (.tooManyQubits n)
  else
    match h : edges.findSome? (edgeError? n) with
    | some e => .error e
    | none =>
      .ok (build n edges fun e he => inside_of_edgeError? (List.findSome?_eq_none_iff.1 h e he))

-- The lists of an adjacency by ascending control; a repeated control keeps its last list.
def sortAdjacency (adjacency : List (Nat × List Nat)) : List (Nat × List Nat) :=
  let latest := adjacency.reverse
  (sortUnique natLt (adjacency.map Prod.fst)).map fun c => (c, (latest.lookup c).getD [])

-- The largest index that an adjacency mentions.
def largestIndex? (adjacency : List (Nat × List Nat)) : Option Nat :=
  (adjacency.flatMap fun (c, ts) => c :: ts).max?

/-- The map of an adjacency from controls to targets, on the qubits up to the largest index. -/
def ofAdjacency (adjacency : List (Nat × List Nat)) : Except CouplingError CouplingMap :=
  let adjacency := sortAdjacency adjacency
  let edges := adjacency.flatMap fun (c, ts) => ts.map (c, ·)
  match largestIndex? adjacency with
  | none => ofEdges 0 edges
  | some q => if UInt32.size ≤ q + 1 then .error (.indexOutOfRange q) else ofEdges (q + 1) edges

/-- A chain in ascending order. -/
def linear (n : Nat) : CouplingMap :=
  build n ((List.range (n - 1)).map fun i => (i, i + 1)) (by simp; omega)

/-- Every qubit joined to the first. -/
def star (n : Nat) : CouplingMap :=
  build n ((List.range (n - 1)).map fun i => (0, i + 1)) (by simp; omega)

/-- Every qubit joined to all later ones. -/
def full (n : Nat) : CouplingMap :=
  build n ((List.range n).flatMap fun a => (List.range (n - a - 1)).map fun i => (a, a + 1 + i))
    (by simp; omega)

variable (m : CouplingMap)

/-- The device with every edge in both directions. -/
def symmetric : CouplingMap :=
  build m.numQubits (m.edges.flatMap fun (a, b) => [(a, b), (b, a)]) fun e h => by
    simp only [List.mem_flatMap, List.mem_cons, List.not_mem_nil, or_false] at h
    obtain ⟨x, hx, rfl | rfl⟩ := h
    · exact m.inside _ hx
    · have := m.inside _ hx
      simp; omega

/-- The edges among the given qubits; the other qubits stay as isolated ones. -/
def induced (qubits : List Nat) : CouplingMap :=
  build m.numQubits (m.edges.filter fun (a, b) => qubits.contains a && qubits.contains b)
    fun e h => m.inside e (List.mem_filter.1 h).1

/-- The edges without direction, the lower end first. -/
def undirectedEdges : List (Nat × Nat) :=
  sortUnique pairLt (m.edges.map fun (a, b) => (min a b, max a b))

def hasEdge (control target : Nat) : Bool := m.edges.contains (control, target)

/-- Joined in either direction. -/
def coupled (a b : Nat) : Bool := m.hasEdge a b || m.hasEdge b a

-- The other end of an edge at `q`.
def otherEnd? (q : Nat) (e : Nat × Nat) : Option Nat :=
  if e.1 = q then some e.2 else if e.2 = q then some e.1 else none

/-- The qubits coupled with `q`, in ascending order. -/
def neighbors (q : Nat) : List Nat := sortUnique natLt (m.edges.filterMap (otherEnd? q))

def degree (q : Nat) : Nat := (m.neighbors q).length

/-- The targets of each qubit as a control. -/
def adjacency : List (Nat × List Nat) :=
  (List.range m.numQubits).map fun q =>
    (q, m.edges.filterMap fun (a, b) => if a = q then some b else none)

end CouplingMap

end CircuitRouting
