import CircuitRouting.Proofs.Pass.Placement
import CircuitRouting.Pass.Routing

/-!
# What placement and routing depend on

Placement and routing see a circuit graph only through its qubits, its classical bits and the
instructions of its layers. Graphs that agree in these are placed and routed in the same way,
whatever the numbers of their nodes.
-/

namespace CircuitRouting

namespace Dag

variable {d d' : Dag} {nodes nodes' : List Nat}

-- Nodes one by one with the same instructions.
def SameNodes (d d' : Dag) : List Nat → List Nat → Prop :=
  List.Forall₂ fun n n' => d.instruction? n = d'.instruction? n'

theorem sameNodes_iff :
    d.SameNodes d' nodes nodes' ↔ nodes.map d.instruction? = nodes'.map d'.instruction? := by
  rw [SameNodes, ← List.forall₂_eq_eq_eq, List.forall₂_map_left_iff, List.forall₂_map_right_iff]

-- The same wires, and the same instructions in each layer.
structure SameLayers (d d' : Dag) : Prop where
  qubits : d.qubits = d'.qubits
  clbits : d.clbits = d'.clbits
  layers : d.layers.map (·.map d.instruction?) = d'.layers.map (·.map d'.instruction?)

theorem SameNodes.pairsOf_eq (same : d.SameNodes d' nodes nodes') :
    d.pairsOf nodes = d'.pairsOf nodes' := by
  have eq : ∀ (d : Dag) nodes,
      d.pairsOf nodes = (nodes.map d.instruction?).filterMap (·.bind Instruction.pair?) := by
    simp [pairsOf, List.filterMap_map]
  rw [eq, eq, sameNodes_iff.mp same]

theorem SameLayers.sameNodes (same : d.SameLayers d') :
    List.Forall₂ (d.SameNodes d') d.layers d'.layers := by
  have eq := same.layers
  rw [← List.forall₂_eq_eq_eq, List.forall₂_map_left_iff, List.forall₂_map_right_iff] at eq
  exact eq.imp fun _ _ => sameNodes_iff.mpr

theorem SameLayers.map_pairsOf_eq (same : d.SameLayers d') :
    d.layers.map d.pairsOf = d'.layers.map d'.pairsOf := by
  rw [← List.forall₂_eq_eq_eq, List.forall₂_map_left_iff, List.forall₂_map_right_iff]
  exact same.sameNodes.imp fun _ _ => SameNodes.pairsOf_eq

end Dag

theorem Placement.choose_congr {d d' : Dag} (same : d.SameLayers d') (m : CouplingMap)
    (given : Option Layout) : choose m given d = choose m given d' := by
  have size : d.numQubits = d'.numQubits := congrArg List.length same.qubits
  have grown : grow m d = grow m d' := by
    simp only [grow, firstPairs, same.map_pairsOf_eq, same.qubits, size]
  have checked : check m d = check m d' := by
    funext lay
    have pair : checkPair m d = checkPair m d' := by
      funext x
      simp only [checkPair, same.qubits]
    simp only [check, same.qubits, pair]
  simp only [choose, size, grown, checked]

namespace Routing

variable {σ : Type} {s : Setting σ} {d d' : Dag} {p : Progress σ} {layer : Nat}
  {nodes nodes' : List Nat}

theorem emitNode_congr {n n' : Nat} (same : d.instruction? n = d'.instruction? n') :
    emitNode d p n = emitNode d' p n' := by
  rw [emitNode, emitNode, same]

section Step

variable (same : s.source.SameNodes d' nodes nodes')
include same

theorem commit_congr (swaps : List (Nat × Nat)) :
    commit s layer nodes p swaps = commit { s with source := d' } layer nodes' p swaps := by
  rw [commit, commit]
  refine congrArg _ (funext fun p => ?_)
  exact foldlM_eq_of_forall₂ same (fun _ _ _ => emitNode_congr) p

theorem route_congr : route s layer nodes p = route { s with source := d' } layer nodes' p := by
  simp only [route, positions, same.pairsOf_eq, commit_congr same]

end Step

theorem routeAlone_congr {n n' : Nat} (same : s.source.instruction? n = d'.instruction? n') :
    routeAlone s layer p n = routeAlone { s with source := d' } layer p n' := by
  rw [routeAlone, routeAlone, route_congr (.cons same .nil)]

theorem routeLayer_congr (same : s.source.SameNodes d' nodes nodes') :
    routeLayer s p (nodes, layer) = routeLayer { s with source := d' } p (nodes', layer) := by
  have alone : ∀ p, nodes.foldlM (routeAlone s layer) p =
      nodes'.foldlM (routeAlone { s with source := d' } layer) p :=
    foldlM_eq_of_forall₂ same fun _ _ _ => routeAlone_congr
  simp only [routeLayer, route_congr same, alone]

theorem forall₂_zipIdx {R : List Nat → List Nat → Prop} {ls ls' : List (List Nat)} (k : Nat)
    (h : List.Forall₂ R ls ls') :
    List.Forall₂ (fun l l' => R l.1 l'.1 ∧ l.2 = l'.2) (ls.zipIdx k) (ls'.zipIdx k) := by
  induction h generalizing k
  case nil => exact .nil
  case cons here _ hi => exact .cons ⟨here, rfl⟩ (hi (k + 1))

theorem routeAll_congr (same : d.SameLayers d') (chooser : Chooser σ) (random : σ) (m : CouplingMap)
    (effort : RoutingEffort) (lay : Layout) :
    routeAll chooser random m effort lay d = routeAll chooser random m effort lay d' := by
  have layers : ∀ p, d.layers.zipIdx.foldlM (routeLayer (setting chooser m effort lay d)) p =
      d'.layers.zipIdx.foldlM (routeLayer (setting chooser m effort lay d')) p := by
    refine foldlM_eq_of_forall₂ (forall₂_zipIdx 0 same.sameNodes) fun p l l' h => ?_
    have ⟨nodes, layer⟩ := l
    have ⟨nodes', layer'⟩ := l'
    cases h.2
    exact routeLayer_congr h.1
  simp only [routeAll, layers, same.clbits]

end Routing

end CircuitRouting
