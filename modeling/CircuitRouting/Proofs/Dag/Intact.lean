import CircuitRouting.Proofs.Dag.Reachable
import CircuitRouting.Proofs.Dag.Sound
import CircuitRouting.Proofs.Layers

/-!
# What the checks of a graph are to find

Each wire is to be one path from its input to its output, through all operations that list it, and each
operation is to have one edge in and one edge out for each of its wires. The checks follow each wire from
its input and count the edges at an operation; they do not look at the wires of these edges. Calls with
an instruction that lists a classical bit twice can leave edges of one wire in the place of those of
another, and the count does not notice. All graphs are intact that calls lead to without such an
instruction.
-/

namespace CircuitRouting.Dag

variable {d : Dag} {x : Edge}

structure Intact (d : Dag) : Prop where
  -- An operation lists no wire twice, and is on the path of each wire that it lists.
  paths : ∀ n i, d.instruction? n = some i → i.wires.Nodup ∧ ∀ w ∈ i.wires, n ∈ d.wireOps w
  -- An operation has one edge in and one edge out for each of its wires, on that wire.
  incoming : ∀ n i, d.instruction? n = some i → ((d.graph.incoming n).map Edge.wire).Perm i.wires
  outgoing : ∀ n i, d.instruction? n = some i → ((d.graph.outgoing n).map Edge.wire).Perm i.wires
  -- An edge starts in the input of a wire or in an operation, and ends in an operation or in an output.
  sources : ∀ x ∈ d.graph.edges,
    (d.instruction? x.source).isSome ∨ ∃ w, d.node? x.source = some (.input w)
  targets : ∀ x ∈ d.graph.edges,
    (d.instruction? x.target).isSome ∨ ∃ w, d.node? x.target = some (.output w)

namespace Intact

theorem tied (h : d.Intact) (verified : d.verify = .ok ()) : d.Tied :=
  tied_of_perm (lists_topologicalOps (length_order_of_verify verified))
    (fun n i op => (h.paths n i op).1) h.incoming h.outgoing

-- Where an edge starts that is no operation, no edge ends.
theorem incoming_source (h : d.Intact) (hx : x ∈ d.graph.edges)
    (none : ¬(d.instruction? x.source).isSome) : d.graph.incoming x.source = [] := by
  have ⟨w, input⟩ := (h.sources x hx).resolve_left none
  refine List.filter_eq_nil_iff.mpr fun y hy target => ?_
  rw [beq_iff_eq] at target
  cases h.targets y hy
  case inl op => exact none (target ▸ op)
  case inr output =>
    have ⟨w', output⟩ := output
    simp [target, input] at output

end Intact

namespace Sound

theorem source_cases (h : d.Sound) (hx : x ∈ d.graph.edges) :
    (d.instruction? x.source).isSome ∨ ∃ w, d.node? x.source = some (.input w) := by
  have ⟨e, he, _, hop⟩ := (h.mem_edges x).mp hx
  have last := ne_lastFrom_of_mem_hops (h.path_nodup e he) hop
  have member := (mem_of_mem_hops hop).1
  rw [track, List.mem_cons, List.mem_append, List.mem_singleton] at member
  rw [lastFrom_append] at last
  rcases member with eq | on | eq
  case inl => exact .inr ⟨e.wire, eq ▸ h.input e he⟩
  case inr.inl => exact .inl (isSome_of_mem_wireOps on)
  case inr.inr => exact absurd eq last

theorem target_cases (h : d.Sound) (hx : x ∈ d.graph.edges) :
    (d.instruction? x.target).isSome ∨ ∃ w, d.node? x.target = some (.output w) := by
  have ⟨e, he, _, hop⟩ := (h.mem_edges x).mp hx
  cases List.mem_append.mp (mem_tail_of_mem_hops hop)
  case inl on => exact .inl (isSome_of_mem_wireOps on)
  case inr eq => exact .inr ⟨e.wire, List.mem_singleton.mp eq ▸ h.output e he⟩

theorem intact (h : d.Sound) : d.Intact where
  paths n i op := by
    refine ⟨(h.operands n i op).1, fun w hw => ?_⟩
    have ⟨e, he, eq⟩ := hasWire_iff.mp ((h.operands n i op).2 w hw)
    exact eq ▸ (h.mem_path e he n).mpr ⟨i, op, eq ▸ hw⟩
  incoming := h.incoming
  outgoing := h.outgoing
  sources _ := h.source_cases
  targets _ := h.target_cases

end Sound

end CircuitRouting.Dag
