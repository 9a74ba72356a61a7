import CircuitRouting.Proofs.Dag.Edited
import CircuitRouting.Proofs.Dag.WireOps
import Mathlib.Logic.Relation

/-!
# Sound graphs

A sound graph has no cycle, and each of its wires is one path from input to output through exactly the
operations on it. Every graph that calls lead to is sound and passes the checks of `Dag.verify`, as
long as no instruction lists a classical bit twice.
-/

namespace CircuitRouting.Dag

variable {d : Dag} {n m : Nat} {i : Instruction} {seq : List (Nat × Instruction)}

-- An edge leads from one node to the other.
def Leads (d : Dag) (n m : Nat) : Prop :=
  ∃ x ∈ d.graph.edges, x.source = n ∧ x.target = m

structure Sound (d : Dag) : Prop where
  acyclic : ∀ n, ¬Relation.TransGen d.Leads n n
  -- Each wire has its two ends.
  wires : d.wireNames.Nodup
  input : ∀ e ∈ d.wires, d.node? e.input = some (.input e.wire)
  output : ∀ e ∈ d.wires, d.node? e.output = some (.output e.wire)
  -- The edges of a wire are the steps of one path, which visits the operations on the wire once each.
  path_nodup : ∀ e ∈ d.wires, (track d.wireOps e).Nodup
  mem_path : ∀ e ∈ d.wires, ∀ n,
    n ∈ d.wireOps e.wire ↔ ∃ i, d.instruction? n = some i ∧ e.wire ∈ i.wires
  edges_nodup : d.graph.edges.Nodup
  mem_edges : ∀ x, x ∈ d.graph.edges ↔
    ∃ e ∈ d.wires, e.wire = x.wire ∧ (x.source, x.target) ∈ hops (track d.wireOps e)
  -- An operation has one edge in and one edge out for each of its wires, on that wire.
  operands : ∀ n i, d.instruction? n = some i → i.wires.Nodup ∧ ∀ w ∈ i.wires, d.hasWire w
  incoming : ∀ n i, d.instruction? n = some i → ((d.graph.incoming n).map Edge.wire).Perm i.wires
  outgoing : ∀ n i, d.instruction? n = some i → ((d.graph.outgoing n).map Edge.wire).Perm i.wires
  front : ∀ e ∈ d.wires, d.predecessor? e.output e.wire = some e.front
  numOps : d.numOps = d.opNodes.length

namespace Serial

theorem track_wireOps (h : d.Serial seq) (e : WireEnds) :
    track d.wireOps e = track (onWire · seq) e := by
  rw [track, track, h.wireOps]

-- The position in a listing grows along every chain of edges.
theorem idxOf_lt_of_transGen (h : d.Serial seq) (chain : Relation.TransGen d.Leads n m) :
    (d.listing seq).idxOf n < (d.listing seq).idxOf m := by
  induction chain
  case single step =>
    have ⟨x, hx, source, target⟩ := step
    exact source ▸ target ▸ h.idxOf_lt_idxOf hx
  case tail step hi =>
    have ⟨x, hx, source, target⟩ := step
    exact Nat.lt_trans hi (source ▸ target ▸ h.idxOf_lt_idxOf hx)

theorem perm_opNodes (h : d.Serial seq) : seq.Perm d.opNodes :=
  h.lists.perm lists_opNodes

theorem numOps_eq (h : d.Serial seq) : d.numOps = seq.length := by
  have nodes := h.perm_nodes.length_eq
  simp only [listing, List.length_append, List.length_map] at nodes
  rw [numOps]
  omega

theorem sound (h : d.Serial seq) : d.Sound where
  acyclic n chain := Nat.lt_irrefl _ (h.idxOf_lt_of_transGen chain)
  wires := h.laid.wires
  input := h.laid.input
  output := h.laid.output
  path_nodup e he := h.track_wireOps e ▸ h.laid.track_nodup he
  mem_path e _ n := by
    rw [h.wireOps, mem_onWire]
    exact exists_congr fun i => and_congr_left fun _ => h.mem_iff n i
  edges_nodup := h.laid.edges_nodup
  mem_edges x := by
    rw [h.laid.mem_edges]
    exact exists_congr fun e => by rw [h.track_wireOps]
  operands n i op :=
    have ⟨nodup, exist, _⟩ := h.wires_of_mem ((h.mem_iff n i).mpr op)
    ⟨nodup, exist⟩
  incoming n i op := h.perm_incoming ((h.mem_iff n i).mpr op)
  outgoing n i op := h.perm_outgoing ((h.mem_iff n i).mpr op)
  front e he := by
    rw [h.laid.predecessor?_eq_some_iff he, Laid.hops_track, h.laid.front e he]
    simp
  numOps := h.numOps_eq.trans h.perm_opNodes.length_eq

end Serial

-- Whatever is called, and whether the calls succeed or fail, the graph stays sound.
theorem edited_sound (edits : List Edit) (once : ∀ edit ∈ edits, edit.Once) :
    (edited edits).verify = .ok () ∧ (edited edits).Sound := by
  have ⟨seq, h⟩ := exists_serial_edited once
  exact ⟨h.verify, h.sound⟩

-- A controlled NOT, which is the last operation on one of its two wires only, gives way to two
-- operations, and the second of them is removed. A missing qubit, the end of a wire and a foreign wire
-- are refused.
def braid : List Edit :=
  [.addQubit 0, .addQubit 1, .addClbit 0, .apply (.cx 0 1), .apply (.gate .h [0]),
    .apply (.gate .h [7]), .removeOp 0, .substitute 6 [.gate .h [0], .cx 1 0],
    .substitute 7 [.cx 0 1], .removeOp 8, .apply (.measure 1 0)]

example : (edited braid).wireOps (.qubit 0) = [6, 7] ∧ (edited braid).wireOps (.qubit 1) = [8] := by
  decide

theorem edited_sound_braid : (∀ edit ∈ braid, edit.Once) ∧ (edited braid).verify = .ok () ∧
    (edited braid).Sound :=
  ⟨by decide, edited_sound braid (by decide)⟩

end CircuitRouting.Dag
