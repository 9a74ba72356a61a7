import CircuitRouting.Proofs.Dag.Chains
import CircuitRouting.Proofs.Dag.Made

/-!
# Layers as slices

The layers of an intact graph are its slices by depth: the first holds the operations that no other leads
to, and each further one those with a longest chain that is longer by one. No two operations of a layer
share a wire, the layers read one after the other keep the order of each wire, and there are as many
layers as the depth of the graph.
-/

namespace CircuitRouting.Dag

variable {d : Dag} {δ : Nat → Nat} {n m k : Nat} {i j : Instruction} {w : Wire} {l : List Nat}

namespace Due

variable {now fuel : Nat} {done : List Nat} {waiting : List Pending}

theorem ranked (h : d.Due δ now done waiting) :
    ∀ p ∈ waiting, ∀ m ∈ p.releasers, δ m < δ p.node := fun p hp =>
  h.depth p hp ▸ (h.wait p hp p.depth).mp le_rfl

-- All that waits and does not start now goes on waiting.
theorem exists_afterLayer_iff {P : Nat → Nat → Prop} (h : d.Due δ now done waiting) :
    (∃ p ∈ afterLayer waiting, P p.node p.depth) ↔
      ∃ p ∈ waiting, p.depth ≠ now ∧ P p.node p.depth := by
  simp only [afterLayer, List.mem_map, List.mem_filter, bne_iff_ne]
  constructor
  case mp =>
    rintro ⟨p, ⟨q, ⟨hq, waits⟩, rfl⟩, holds⟩
    exact ⟨q, hq, mt (h.ready_iff hq).mpr waits, holds⟩
  case mpr =>
    rintro ⟨p, hp, late, holds⟩
    exact ⟨_, ⟨p, ⟨hp, mt (h.ready_iff hp).mp late⟩, rfl⟩, holds⟩

theorem mem_nextLayer_iff (h : d.Due δ now done waiting) :
    n ∈ nextLayer waiting ↔ ∃ p ∈ waiting, p.node = n ∧ p.depth = now := by
  rw [h.toWaiting.perm_nextLayer.mem_iff]
  simp only [List.mem_map, List.mem_filter, beq_iff_eq]
  constructor
  case mp =>
    rintro ⟨p, ⟨hp, ready⟩, node⟩
    exact ⟨p, hp, node, (h.ready_iff hp).mp ready⟩
  case mpr =>
    rintro ⟨p, hp, node, depth⟩
    exact ⟨p, ⟨hp, (h.ready_iff hp).mpr depth⟩, node⟩

-- The layers are what starts now and at the times to come.
theorem mem_layersFrom_iff (h : d.Due δ now done waiting) (enough : waiting.length ≤ fuel) :
    n ∈ (layersFrom fuel waiting)[k]?.getD [] ↔
      ∃ p ∈ waiting, p.node = n ∧ p.depth = now + k := by
  induction fuel generalizing now done waiting k
  case zero => simp [layersFrom, List.eq_nil_of_length_eq_zero (Nat.le_zero.mp enough)]
  case succ fuel hi =>
    rw [layersFrom_succ]
    split
    case isTrue empty => simp [h.toWaiting.eq_nil_of_isEmpty h.ranked empty]
    case isFalse some =>
      have shorter := length_afterLayer_lt some
      cases k
      case zero => simpa using h.mem_nextLayer_iff
      case succ k =>
        rw [List.getElem?_cons_succ, hi h.next (by omega), h.exists_afterLayer_iff
          (P := fun node depth => node = n ∧ depth = now + 1 + k)]
        refine exists_congr fun p => and_congr_right fun _ => ?_
        omega

-- Each layer is the next one at some time.
theorem exists_due_of_mem (h : d.Due δ now done waiting) (hl : l ∈ layersFrom fuel waiting) :
    ∃ now' done' waiting', d.Due δ now' done' waiting' ∧ l = nextLayer waiting' ∧
      ¬(waiting'.filter fun p => p.needed == 0).isEmpty := by
  induction fuel generalizing now done waiting
  case zero => simp [layersFrom] at hl
  case succ fuel hi =>
    rw [layersFrom_succ] at hl
    split at hl
    case isTrue => simp at hl
    case isFalse some =>
      cases List.mem_cons.mp hl
      case inl eq => exact ⟨now, done, waiting, h, eq, some⟩
      case inr hl => exact hi h.next hl

theorem sorted_of_mem (h : d.Due δ now done waiting) (hl : l ∈ layersFrom fuel waiting) :
    l.Pairwise fun n m => pairLt (d.sortKey n) (d.sortKey m) := by
  obtain ⟨_, _, _, due, rfl, _⟩ := h.exists_due_of_mem hl
  exact due.sorted_nextLayer

theorem ne_nil_of_mem (h : d.Due δ now done waiting) (hl : l ∈ layersFrom fuel waiting) : l ≠ [] := by
  obtain ⟨_, _, _, due, rfl, some⟩ := h.exists_due_of_mem hl
  intro none
  have perm := due.toWaiting.perm_nextLayer
  rw [none, List.nil_perm, List.map_eq_nil_iff] at perm
  exact some (List.isEmpty_iff.mpr perm)

end Due

namespace Depths

variable (depths : d.Depths δ) (h : d.Tied)
include depths h

theorem exists_pending_iff :
    (∃ p ∈ d.pending, p.node = n ∧ p.depth = k) ↔ (d.instruction? n).isSome ∧ δ n = k := by
  constructor
  case mp =>
    rintro ⟨p, hp, rfl, rfl⟩
    have ⟨i, found, depth, _⟩ := depths.of_mem_pending h hp
    exact ⟨by simp [found], depth.symm⟩
  case mpr =>
    rintro ⟨op, rfl⟩
    have ⟨i, found⟩ := Option.isSome_iff_exists.mp op
    have waits : n ∈ d.pending.map Pending.node := by
      rw [map_node_pending]
      exact List.mem_map_of_mem ((h.lists.mem_iff n i).mpr found)
    have ⟨p, hp, node⟩ := List.mem_map.mp waits
    have ⟨_, _, depth, _⟩ := depths.of_mem_pending h hp
    exact ⟨p, hp, node, node ▸ depth⟩

-- A layer holds the operations of its depth.
theorem mem_layer_iff :
    n ∈ d.layers[k]?.getD [] ↔ (d.instruction? n).isSome ∧ δ n = k := by
  rw [layers, (depths.due h).mem_layersFrom_iff le_rfl, Nat.zero_add, depths.exists_pending_iff h]

theorem length_layers_le_iff : d.layers.length ≤ k ↔ ∀ n, (d.instruction? n).isSome → δ n < k := by
  constructor
  case mp =>
    intro le n op
    by_contra deep
    have none : d.layers[δ n]? = none := List.getElem?_eq_none (by omega)
    have mem := (depths.mem_layer_iff h).mpr ⟨op, rfl⟩
    simp [none] at mem
  case mpr =>
    intro lt
    by_contra more
    have found : d.layers[k]? = some d.layers[k] := List.getElem?_eq_getElem (by omega)
    have some := (depths.due h).ne_nil_of_mem (List.mem_of_getElem? found)
    obtain ⟨n, hn⟩ := List.exists_mem_of_ne_nil _ some
    obtain ⟨op, eq⟩ := (depths.mem_layer_iff h).mp (by rwa [found, Option.getD_some])
    exact absurd (lt n op) (by omega)

end Depths

-- A layer: the operations before which the longest chain has a given length, sorted, and no two of them
-- on a common wire.
structure Slice (d : Dag) (k : Nat) (l : List Nat) : Prop where
  mem_iff : ∀ n, n ∈ l ↔ (d.instruction? n).isSome ∧ d.LongestChain k n
  sorted : l.Pairwise fun n m => pairLt (d.sortKey n) (d.sortKey m)
  apart : l.Pairwise fun n m => ∀ i ∈ d.instruction? n, ∀ j ∈ d.instruction? m, i.Apart j

namespace Intact

variable (h : d.Intact) (verified : d.verify = .ok ())
include h verified

theorem slice (hl : d.layers[k]? = some l) : d.Slice k l := by
  have tied := h.tied verified
  have ⟨δ, depths⟩ := tied.exists_depths
  have mem := List.mem_of_getElem? hl
  have sorted := (depths.due tied).sorted_of_mem mem
  refine ⟨fun n => ?_, sorted, ?_⟩
  case refine_1 =>
    have layer := depths.mem_layer_iff tied (n := n) (k := k)
    rw [hl, Option.getD_some] at layer
    rw [layer]
    exact and_congr_right fun op => (depths.longestChain_iff tied op).symm
  case refine_2 =>
    refine sorted.imp_of_mem fun {n m} hn hm lt i hi j hj w wi wj => ?_
    have on := (h.paths n i hi).2 w wi
    have same := tied.eq_of_mem_wireOps mem hn hm on ((h.paths m j hj).2 w wj)
    simp [same, pairLt_separating.irrefl] at lt

-- The layers read one after the other keep the order of each wire.
theorem wireOps_sublist_layers (w : Wire) : (d.wireOps w).Sublist d.layers.flatten := by
  have tied := h.tied verified
  have nodup := tied.nodup_layers
  have all : d.wireOps w ⊆ d.layers.flatten := by
    intro n on
    have ⟨i, found⟩ := Option.isSome_iff_exists.mp (isSome_of_mem_wireOps on)
    rw [tied.perm_layers.mem_iff]
    exact List.mem_map_of_mem ((tied.lists.mem_iff n i).mpr found)
  refine sublist_of_hops_forward nodup all fun n m hop => ?_
  have ⟨hn, hm⟩ := mem_of_mem_hops hop
  have edge := Graph.mem_edges_of_successor? (successor?_of_mem_hops_wireOps hop)
  have ⟨u, v, cut⟩ := List.append_of_mem (all hm)
  have before := tied.mem_of_flatten_eq cut (isSome_of_mem_wireOps hn) edge
  rw [cut] at nodup ⊢
  exact idxOf_lt_idxOf_of_mem_left nodup before

theorem length_layers : d.layers.length = d.depth := by
  have tied := h.tied verified
  have ⟨δ, depths⟩ := tied.exists_depths
  refine eq_of_forall_ge_iff fun k => ?_
  rw [depths.length_layers_le_iff tied, depths.depth_le_iff h verified]

end Intact

-- Where the checks pass and find what they are to find, the layers are the slices.
theorem layers_slices (verified : d.verify = .ok ()) (h : d.Intact) :
    (∀ k l, d.layers[k]? = some l → d.Slice k l) ∧
    d.layers.flatten.Perm (d.opNodes.map Prod.fst) ∧
    (∀ w, (d.wireOps w).Sublist d.layers.flatten) ∧ d.layers.length = d.depth :=
  have tied := h.tied verified
  ⟨fun _ _ => h.slice verified, tied.perm_layers.trans ((tied.lists.perm lists_opNodes).map _),
    h.wireOps_sublist_layers verified, h.length_layers verified⟩

-- Two operations share both their wires, two measurements the classical bit, and a barrier holds no
-- qubit. What stood between the first two is gone.
def stacked : List Edit :=
  [.addQubit 0, .addQubit 1, .addQubit 2, .addClbit 0, .apply (.barrier []), .apply (.gate .h [2]),
    .apply (.cx 0 1), .apply (.gate .x [0]), .apply (.cx 1 0), .apply (.measure 2 0),
    .apply (.measure 1 0), .removeOp 11]

theorem layers_slices_stacked : (edited stacked).verify = .ok () ∧ (edited stacked).Intact ∧
    ((∀ k l, (edited stacked).layers[k]? = some l → (edited stacked).Slice k l) ∧
      (edited stacked).layers.flatten.Perm ((edited stacked).opNodes.map Prod.fst) ∧
      (∀ w, ((edited stacked).wireOps w).Sublist (edited stacked).layers.flatten) ∧
      (edited stacked).layers.length = (edited stacked).depth) ∧
    (edited stacked).layers = [[10, 9, 8], [12, 13], [14]] := by
  have once : ∀ edit ∈ stacked, edit.Once := by decide
  have ⟨_, serial⟩ := exists_serial_edited once
  have intact := serial.sound.intact
  exact ⟨serial.verify, intact, layers_slices serial.verify intact, by decide +kernel⟩

-- The last node lists both bits, and has two edges in on the bit 1 and none on the bit 0: what stood
-- before it repeated both bits and was cut out.
def crossed : List Edit :=
  [.addClbit 0, .addClbit 1, .hold [0], .hold [0], .hold [0, 0], .removeOp 5, .removeOp 6, .hold [1],
    .hold [0, 0, 1, 1], .hold [0, 1], .removeOp 6] ++ Edit.cut 5

-- The checks pass, and two operations of a layer share a bit.
theorem layers_crossed : (edited crossed).verify = .ok () ∧ (edited crossed).layers = [[4, 7]] ∧
    ((edited crossed).instruction? 4).map Instruction.clbits = some [0] ∧
    ((edited crossed).instruction? 7).map Instruction.clbits = some [0, 1] ∧
    ¬(edited crossed).Slice 0 [4, 7] := by
  have first : ((edited crossed).instruction? 4).map Instruction.clbits = some [0] := by
    decide +kernel
  have second : ((edited crossed).instruction? 7).map Instruction.clbits = some [0, 1] := by
    decide +kernel
  refine ⟨by decide +kernel, by decide +kernel, first, second, fun slice => ?_⟩
  have ⟨i, hi, clbits⟩ := Option.map_eq_some_iff.mp first
  have ⟨j, hj, clbits'⟩ := Option.map_eq_some_iff.mp second
  have apart := List.rel_of_pairwise_cons slice.apart (List.mem_singleton_self 7) i hi j hj
  exact apart (.clbit 0) (by simp [Instruction.wires, clbits]) (by simp [Instruction.wires, clbits'])

end CircuitRouting.Dag
