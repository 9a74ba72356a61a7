import CircuitRouting.Proofs.Dag.Made
import CircuitRouting.Proofs.Expansion.Native

/-!
# Graphs rebuilt in the basis

Expansion builds a graph anew, from valid instructions, and so it never fails. Where an instruction
stood in the topological order, there stands what it expands to, unless an instruction that is kept
lists a classical bit twice: it comes just after itself then, and is missing with all that follows. A
graph in the basis is rebuilt as it is, so expanding twice is expanding once.
-/

namespace CircuitRouting

namespace Dag

variable {d d' : Dag} {basis : Basis}

theorem qubits_eq_of_hasWire (h : ∀ w, d'.hasWire w ↔ d.hasWire w) : d'.qubits = d.qubits :=
  natLt_separating.eq_of_mem_iff (natLt_separating.pairwise_sortUnique _)
    (natLt_separating.pairwise_sortUnique _) fun _ => by rw [mem_qubits, mem_qubits, h]

theorem clbits_eq_of_hasWire (h : ∀ w, d'.hasWire w ↔ d.hasWire w) : d'.clbits = d.clbits :=
  natLt_separating.eq_of_mem_iff (natLt_separating.pairwise_sortUnique _)
    (natLt_separating.pairwise_sortUnique _) fun _ => by rw [mem_clbits, mem_clbits, h]

-- The same bits and the same level, and gates of the basis only.
structure Recast (d : Dag) (basis : Basis) (d' : Dag) : Prop where
  native : ∀ n i g, d'.instruction? n = some i → i.action = .gate g → g.name ∈ basis.gates
  qubits : d'.qubits = d.qubits
  clbits : d'.clbits = d.clbits
  level : d'.level = d.level

theorem recast_of_expand (valid : basis.validate = .ok ()) (eq : d.expand basis = .ok d') :
    d.Recast basis d' := by
  have ⟨wires, level⟩ := wires_of_expand eq
  refine ⟨fun n i g found => ?_, qubits_eq_of_hasWire wires, clbits_eq_of_hasWire wires, level⟩
  have ⟨_, u3, cx⟩ := Basis.of_validate valid
  have bare := Written.ofWires d.qubits d.clbits d.level
  obtain ⟨new, snd, _, _, nodes⟩ := exists_nodes_of_applyAll bare.serial.laid.tidy eq
  have mem : (n, i) ∈ new := by
    rw [nodes, ← bare.serial.mem_iff] at found
    simpa using found
  have expanded := List.mem_map_of_mem (f := Prod.snd) mem
  rw [snd] at expanded
  have ⟨_, _, expanded⟩ := List.mem_flatMap.mp expanded
  exact Instruction.native_expand u3 cx expanded g

-- Each instruction is where it was expanded, unless one that is kept lists a classical bit twice.
theorem instructions_expand_iff (eq : d.expand basis = .ok d') :
    d'.instructions = d.instructions.flatMap (·.expand basis) ↔
      ∀ i ∈ d.instructions, ∀ j ∈ i.expand basis, j.clbits.Nodup := by
  rw [(Written.ofWires d.qubits d.clbits d.level).instructions_eq_iff (.ofWires ..) eq]
  simp only [List.mem_flatMap]
  constructor
  case mp => exact fun once i hi j hj => once j ⟨i, hi, hj⟩
  case mpr =>
    rintro once j ⟨i, hi, hj⟩
    exact once i hi j hj

-- In the basis there is nothing to expand: the graph is rebuilt from the same wires and instructions.
theorem Recast.expand_eq (h : d.Recast basis d') (valid : basis.validate = .ok ())
    (eq : d.expand basis = .ok d')
    (instructions : d'.instructions = d.instructions.flatMap (·.expand basis)) :
    d'.expand basis = .ok d' := by
  have ⟨_, u3, cx⟩ := Basis.of_validate valid
  have stays : d'.instructions.flatMap (·.expand basis) = d'.instructions := by
    have each : d'.instructions.flatMap (·.expand basis) = d'.instructions.flatMap ([·]) := by
      refine List.flatMap_congr fun i hi => Instruction.expand_of_native ?_
      have ⟨_, _, mem⟩ := List.mem_flatMap.mp (instructions ▸ hi)
      exact Instruction.native_expand u3 cx mem
    rw [each, List.flatMap_singleton']
  rw [expand, stays, instructions, h.qubits, h.clbits, h.level]
  exact eq

end Dag

namespace Pass

-- The pass expands the graph in its order, and a second run changes nothing, exactly if no instruction
-- that it writes lists a classical bit twice.
theorem run_expansion_in_order (w : Workspace) (made : w.dag.Made)
    (valid : w.properties.targetBasis.validate = .ok ()) :
    ∃ d, expansion.run w = (.ok (), { w with dag := d }) ∧
      w.dag.Recast w.properties.targetBasis d ∧
      (d.instructions = w.dag.instructions.flatMap (·.expand w.properties.targetBasis) ∧
          expansion.run { w with dag := d } = (.ok (), { w with dag := d }) ↔
        ∀ i ∈ w.dag.instructions, ∀ j ∈ i.expand w.properties.targetBasis, j.clbits.Nodup) := by
  have ⟨d, eq⟩ := Dag.exists_expand made.fits_instructions w.properties.targetBasis
  have recast := Dag.recast_of_expand valid eq
  have listed := Dag.instructions_expand_iff eq
  refine ⟨d, run_expansion eq, recast, fun h => listed.mp h.1, fun once => ?_⟩
  have instructions := listed.mpr once
  exact ⟨instructions, run_expansion (w := { w with dag := d })
    (recast.expand_eq valid eq instructions)⟩

-- Gates on one and on two qubits for a basis without `u1`, `u2` and `id`.
def mixed : Workspace where
  dag := Dag.edited [.addQubit 0, .addQubit 1, .addClbit 0, .apply (.gate .h [1]),
    .apply (.gate .swap [1, 0]), .apply (.barrier [0, 1]), .apply (.gate .id [0]),
    .apply (.gate .cz [0, 1]), .apply (.measure 1 0), .apply (.gate .tdg [0])]
  properties := { basis := some ⟨["u3", "cx"]⟩ }

theorem run_expansion_in_order_mixed :
    mixed.dag.Made ∧ mixed.properties.targetBasis.validate = .ok () ∧
      ∃ d, expansion.run mixed = (.ok (), { mixed with dag := d }) ∧
        mixed.dag.Recast mixed.properties.targetBasis d ∧
        d.instructions = mixed.dag.instructions.flatMap (·.expand mixed.properties.targetBasis) ∧
        expansion.run { mixed with dag := d } = (.ok (), { mixed with dag := d }) := by
  have made : mixed.dag.Made := Dag.made_edited _
  have valid : mixed.properties.targetBasis.validate = .ok () := by decide +kernel
  have ⟨d, ran, recast, in_order⟩ := run_expansion_in_order mixed made valid
  refine ⟨made, valid, d, ran, recast, in_order.mpr fun i hi j hj => ?_⟩
  have reachable : mixed.dag.Reachable := Dag.reachable_edited (by decide)
  have once := reachable.nodup_of_mem_instructions hi
  exact (Dag.fitsOnce_expand ⟨made.fits_instructions i hi, once⟩ hj).once

-- An operation that lists a classical bit twice, in a graph that passes the checks.
def halfwayKept : Workspace where
  dag := Dag.edited Dag.halfway
  properties := { basis := some ⟨["u3", "cx"]⟩ }

-- It is missing from the graph that is written anew.
theorem run_expansion_halfway : halfwayKept.dag.verify = .ok () ∧
    halfwayKept.properties.targetBasis.validate = .ok () ∧
    halfwayKept.dag.instructions.map Instruction.clbits = [[0, 1, 1]] ∧
    ∃ d, expansion.run halfwayKept = (.ok (), { halfwayKept with dag := d }) ∧
      d.instructions = [] ∧ d.instructions ≠
        halfwayKept.dag.instructions.flatMap (·.expand halfwayKept.properties.targetBasis) := by
  have dag : halfwayKept.dag = Dag.edited Dag.halfway := by rw [halfwayKept]
  have valid : halfwayKept.properties.targetBasis.validate = .ok () := by decide +kernel
  have listed : halfwayKept.dag.instructions.map Instruction.clbits = [[0, 1, 1]] := by decide +kernel
  have kept : (halfwayKept.dag.instructions.flatMap
      (·.expand halfwayKept.properties.targetBasis)).map Instruction.clbits = [[0, 1, 1]] := by
    decide +kernel
  have made : halfwayKept.dag.Made := dag ▸ Dag.made_edited _
  have ⟨d, eq⟩ := Dag.exists_expand made.fits_instructions halfwayKept.properties.targetBasis
  have lost : ((halfwayKept.dag.expand halfwayKept.properties.targetBasis).toOption.map
      (·.instructions.length)) = some 0 := by
    decide +kernel
  have none : d.instructions = [] := by
    rw [eq] at lost
    exact List.length_eq_zero_iff.mp (Option.some.inj lost)
  refine ⟨dag ▸ Dag.verify_halfway, valid, listed, d, run_expansion eq, none, fun same => ?_⟩
  rw [← same, none] at kept
  exact List.cons_ne_nil _ _ kept.symm

end Pass

end CircuitRouting
