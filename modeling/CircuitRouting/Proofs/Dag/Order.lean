import CircuitRouting.Dag.Integrity
import CircuitRouting.Proofs.Dag.Serial
import CircuitRouting.Proofs.Except
import CircuitRouting.Proofs.Graph.Peel
import Mathlib.Data.List.Perm.Subperm

/-!
# The topological order of a circuit graph

In a graph with a serial order nothing is left out of the topological order, which is a serial order
itself, and the graph passes all checks. If the operations were added one after the other, each behind
the inputs of its wires, the topological order is the order in which they came.
-/

namespace CircuitRouting.Dag

variable {d : Dag} {n : Nat} {i : Instruction} {seq : List (Nat × Instruction)} {e : WireEnds}

-- All nodes: the inputs, the operations, the outputs.
def listing (d : Dag) (seq : List (Nat × Instruction)) : List Nat :=
  d.wires.map WireEnds.input ++ (seq.map Prod.fst ++ d.wires.map WireEnds.output)

theorem nodup_order : d.order.Nodup := by
  rw [order, Graph.order_eq_peel]
  exact Graph.nodup_peel (d.graph.nodes_sorted.imp Nat.ne_of_lt)

-- An order as long as the nodes leaves none of them out.
theorem mem_order_of_length (h : d.order.length = d.graph.nodes.length) :
    n ∈ d.order ↔ (d.node? n).isSome := by
  have subset : d.order ⊆ d.graph.nodes := by
    rw [order, Graph.order_eq_peel]
    exact fun _ => Graph.mem_of_mem_peel
  have perm := (List.Nodup.subperm nodup_order subset).perm_of_length_le (Nat.le_of_eq h.symm)
  exact perm.mem_iff.trans d.graph.mem_nodes

-- An edge leads forward in the topological order, as far as this goes.
theorem idxOf_order_lt {x : Edge} (hx : x ∈ d.graph.edges) (target : x.target ∈ d.order) :
    x.source ∈ d.order ∧ d.order.idxOf x.source < d.order.idxOf x.target := by
  have ⟨u, v, split⟩ := List.append_of_mem target
  have peel : Graph.peel _ _ _ = u ++ x.target :: v := d.graph.order_eq_peel.symm.trans split
  have before := Graph.source_mem_of_peel_eq peel hx rfl
  have nodup := nodup_order (d := d)
  rw [split] at nodup ⊢
  exact ⟨by simp [before], idxOf_lt_idxOf_of_mem_left nodup before⟩

-- Each wire is listed once, and has its ends where the list says.
structure Ended (d : Dag) : Prop where
  wires : (d.wires.map WireEnds.wire).Nodup
  input : ∀ e ∈ d.wires, d.node? e.input = some (.input e.wire)
  output : ∀ e ∈ d.wires, d.node? e.output = some (.output e.wire)

theorem Ended.nodup_listing (h : d.Ended) (nodup : (seq.map Prod.fst).Nodup)
    (ops : ∀ n ∈ seq.map Prod.fst, (d.instruction? n).isSome) : (d.listing seq).Nodup := by
  -- The ends of different wires are different.
  have injective : ∀ f : WireEnds → Nat, ∀ c : Wire → Node, (∀ v w, c v = c w → v = w) →
      (∀ e ∈ d.wires, d.node? (f e) = some (c e.wire)) → (d.wires.map f).Nodup := by
    intro f c inj node
    refine List.Nodup.map_on (fun e he e' he' eq => ?_) (.of_map _ h.wires)
    have same := node e he
    rw [eq, node e' he', Option.some.injEq] at same
    exact List.inj_on_of_nodup_map h.wires he he' (inj _ _ same).symm
  refine List.nodup_append.mpr ⟨?_, List.nodup_append.mpr ⟨nodup, ?_, ?_⟩, ?_⟩
  case refine_1 => exact injective _ .input (by simp) h.input
  case refine_2 => exact injective _ .output (by simp) h.output
  case refine_3 =>
    rintro a ha b hb rfl
    obtain ⟨e, he, eq⟩ := List.mem_map.mp hb
    have op := ops a ha
    simp [instruction?_eq, ← eq, h.output e he, Node.instruction?] at op
  case refine_4 =>
    rintro a ha b hb rfl
    obtain ⟨e, he, eq⟩ := List.mem_map.mp ha
    have node := h.input e he
    rw [eq] at node
    cases List.mem_append.mp hb
    case inl hb =>
      have op := ops a hb
      simp [instruction?_eq, node, Node.instruction?] at op
    case inr hb =>
      obtain ⟨e', he', eq'⟩ := List.mem_map.mp hb
      simp [← eq', h.output e' he'] at node

namespace Serial

theorem isSome_of_mem (h : d.Serial seq) (hn : n ∈ seq.map Prod.fst) :
    (d.instruction? n).isSome := by
  have ⟨x, hx, eq⟩ := List.mem_map.mp hn
  rw [← eq, (h.mem_iff x.1 x.2).mp hx]
  rfl

theorem mem_listing (h : d.Serial seq) : n ∈ d.listing seq ↔ (d.node? n).isSome := by
  simp only [listing, List.mem_append, List.mem_map]
  constructor
  case mp =>
    rintro (⟨e, he, rfl⟩ | ⟨x, hx, rfl⟩ | ⟨e, he, rfl⟩)
    · simp [h.laid.input e he]
    · exact isSome_of_instruction? (h.isSome_of_mem (List.mem_map_of_mem hx))
    · simp [h.laid.output e he]
  case mpr =>
    intro hn
    have ⟨x, hx⟩ := Option.isSome_iff_exists.mp hn
    cases x
    case input w =>
      have ⟨e, he, _, eq⟩ := h.laid.inputs n w hx
      exact .inl ⟨e, he, eq⟩
    case output w =>
      have ⟨e, he, _, eq⟩ := h.laid.outputs n w hx
      exact .inr (.inr ⟨e, he, eq⟩)
    case op i => exact .inr (.inl ⟨(n, i), (h.mem_iff n i).mpr (instruction?_eq_some_iff.mpr hx), rfl⟩)

theorem nodup_listing (h : d.Serial seq) : (d.listing seq).Nodup :=
  Ended.nodup_listing ⟨h.laid.wires, h.laid.input, h.laid.output⟩ h.nodup fun _ => h.isSome_of_mem

theorem perm_nodes (h : d.Serial seq) : (d.listing seq).Perm d.graph.nodes := by
  have nodup : d.graph.nodes.Nodup := d.graph.nodes_sorted.imp Nat.ne_of_lt
  refine (List.perm_ext_iff_of_nodup h.nodup_listing nodup).mpr fun n => ?_
  rw [h.mem_listing, Graph.mem_nodes]
  rfl

theorem track_sublist (he : e ∈ d.wires) : (track (onWire · seq) e).Sublist (d.listing seq) := by
  have first : [e.input].Sublist (d.wires.map WireEnds.input) :=
    List.singleton_sublist.mpr (List.mem_map_of_mem he)
  have last : [e.output].Sublist (d.wires.map WireEnds.output) :=
    List.singleton_sublist.mpr (List.mem_map_of_mem he)
  exact first.append (onWire_sublist.append last)

-- Edges lead forward in the listing.
theorem idxOf_lt_idxOf (h : d.Serial seq) {x : Edge} (hx : x ∈ d.graph.edges) :
    (d.listing seq).idxOf x.source < (d.listing seq).idxOf x.target := by
  have ⟨e, he, _, hop⟩ := (h.laid.mem_edges x).mp hx
  let R (a b : Nat) := (d.listing seq).idxOf a < (d.listing seq).idxOf b
  have forward : (d.listing seq).Pairwise R := pairwise_idxOf h.nodup_listing
  exact rel_of_mem_hops (R := R) (forward.sublist (track_sublist he)) hop

theorem source_mem_nodes (h : d.Serial seq) {x : Edge} (hx : x ∈ d.graph.edges) :
    x.source ∈ d.graph.nodes := by
  have ⟨e, he, _, hop⟩ := (h.laid.mem_edges x).mp hx
  exact h.perm_nodes.mem_iff.mp ((track_sublist he).subset (mem_of_mem_hops hop).1)

theorem length_order (h : d.Serial seq) : d.order.length = d.graph.nodes.length := by
  rw [order, Graph.order_eq_peel]
  exact Graph.length_peel (d.listing seq).idxOf (d.graph.nodes_sorted.imp Nat.ne_of_lt)
    fun _ hx _ => ⟨h.source_mem_nodes hx, h.idxOf_lt_idxOf hx⟩

end Serial

-- The operations among nodes, with their instructions.
def opsAt (d : Dag) (ns : List Nat) : List (Nat × Instruction) :=
  ns.filterMap fun n => (d.instruction? n).map (n, ·)

theorem mem_opsAt {ns : List Nat} : (n, i) ∈ d.opsAt ns ↔ n ∈ ns ∧ d.instruction? n = some i := by
  simp only [opsAt, List.mem_filterMap, Option.map_eq_some_iff, Prod.mk.injEq]
  constructor
  case mp =>
    rintro ⟨n, hn, i, hi, rfl, rfl⟩
    exact ⟨hn, hi⟩
  case mpr => exact fun ⟨hn, hi⟩ => ⟨n, hn, i, hi, rfl, rfl⟩

theorem map_fst_opsAt (ns : List Nat) :
    (d.opsAt ns).map Prod.fst = ns.filter fun n => (d.instruction? n).isSome := by
  induction ns
  case nil => rfl
  case cons n ns hi =>
    rw [opsAt] at hi ⊢
    cases h : d.instruction? n <;> simp [h, hi]

theorem map_fst_topologicalOps :
    d.topologicalOps.map Prod.fst = d.order.filter fun n => (d.instruction? n).isSome :=
  map_fst_opsAt d.order

-- If the order leaves no node out, every operation is in it once.
theorem lists_topologicalOps (complete : d.order.length = d.graph.nodes.length) :
    d.Lists d.topologicalOps where
  nodup := by
    rw [map_fst_topologicalOps]
    exact nodup_order.filter _
  mem_iff n i := by
    rw [topologicalOps, ← opsAt, mem_opsAt, mem_order_of_length complete]
    exact ⟨And.right, fun op => ⟨isSome_of_instruction? (by simp [op]), op⟩⟩

-- An edge between operations leads forward in the topological order.
theorem mem_of_topologicalOps_eq {x : Nat × Instruction} {u v : List (Nat × Instruction)} {e : Edge}
    (eq : d.topologicalOps = u ++ x :: v) (he : e ∈ d.graph.edges) (target : e.target = x.1)
    (op : (d.instruction? e.source).isSome) : e.source ∈ u.map Prod.fst := by
  have ⟨l, r, split, left, right⟩ := List.filterMap_eq_append_iff.mp eq
  have ⟨mid, n, rest, split', skipped, here, _⟩ := List.filterMap_eq_cons_iff.mp right
  have number : n = x.1 := by
    have ⟨i, _, eq⟩ := Option.map_eq_some_iff.mp here
    exact congrArg Prod.fst eq
  have whole : d.order = (l ++ mid) ++ n :: rest := by simp [split, split']
  rw [order, Graph.order_eq_peel] at whole
  have before := Graph.source_mem_of_peel_eq whole he (target.trans number.symm)
  have ⟨i, hi⟩ := Option.isSome_iff_exists.mp op
  cases List.mem_append.mp before
  case inl mem =>
    rw [← left]
    exact List.mem_map.mpr ⟨(e.source, i), List.mem_filterMap.mpr ⟨_, mem, by simp [hi]⟩, rfl⟩
  case inr mem => simpa [hi] using skipped _ mem

namespace Serial

theorem perm_topologicalOps (h : d.Serial seq) : seq.Perm d.topologicalOps :=
  h.lists.perm (lists_topologicalOps h.length_order)

theorem mem_instructions (h : d.Serial seq) : i ∈ d.instructions ↔ ∃ n, d.instruction? n = some i := by
  simp only [instructions, List.mem_map, Prod.exists, ← h.perm_topologicalOps.mem_iff, h.mem_iff]
  exact ⟨fun ⟨n, _, found, eq⟩ => ⟨n, eq ▸ found⟩, fun ⟨n, found⟩ => ⟨n, i, found, rfl⟩⟩

theorem topologicalOps (h : d.Serial seq) : d.Serial d.topologicalOps :=
  h.of_forward h.perm_topologicalOps fun _ _ _ eq _ => mem_of_topologicalOps_eq eq

-- The last node of a wire is the only one that may have a lower number than the node before it.
theorem ascending (h : d.Serial seq) (sorted : (seq.map Prod.fst).Pairwise (· < ·))
    (inputs : ∀ e ∈ d.wires, ∀ n ∈ onWire e.wire seq, e.input < n) {x : Edge} (hx : x ∈ d.graph.edges)
    (inner : ∀ e ∈ d.wires, x.target ≠ e.output) :
    x.source < x.target ∧ ∀ e ∈ d.wires, x.source ≠ e.output := by
  have ⟨e, he, _, hop⟩ := (h.laid.mem_edges x).mp hx
  rw [Laid.hops_track, List.mem_append, List.mem_singleton] at hop
  have hop := hop.resolve_right fun eq => inner e he (Prod.mk.inj eq).2
  have chain : (e.input :: onWire e.wire seq).Pairwise (· < ·) :=
    List.pairwise_cons.mpr ⟨inputs e he, sorted.sublist onWire_sublist⟩
  refine ⟨rel_of_mem_hops (R := (· < ·)) chain hop, fun e' he' => ?_⟩
  cases List.mem_cons.mp (mem_of_mem_hops hop).1
  case inl eq => exact eq ▸ h.laid.input_ne_output he he'
  case inr mem => exact h.laid.ne_output he' (h.laid.ops e he _ mem)

-- Operations that were added one after the other, each behind its wires, come in this order.
theorem topologicalOps_eq (h : d.Serial seq) (sorted : (seq.map Prod.fst).Pairwise (· < ·))
    (inputs : ∀ e ∈ d.wires, ∀ n ∈ onWire e.wire seq, e.input < n) : d.topologicalOps = seq := by
  let inner (n : Nat) : Bool := d.wires.all fun e => n != e.output
  have inner_iff : ∀ n, inner n ↔ ∀ e ∈ d.wires, n ≠ e.output := by simp [inner]
  have peeled : (d.order.filter inner).Pairwise (· < ·) := by
    rw [order, Graph.order_eq_peel]
    refine Graph.pairwise_filter_peel d.graph.nodes_sorted (fun _ => h.source_mem_nodes)
      fun x hx hi => ?_
    have ⟨lt, source⟩ := h.ascending sorted inputs hx ((inner_iff _).mp hi)
    exact ⟨(inner_iff _).mpr source, lt⟩
  have sorted' : (d.topologicalOps.map Prod.fst).Pairwise (· < ·) := by
    rw [map_fst_topologicalOps]
    refine peeled.sublist (List.monotone_filter_right _ fun n hn => (inner_iff n).mpr fun e he => ?_)
    exact h.laid.ne_output he hn
  have left : d.topologicalOps.Pairwise (·.1 < ·.1) := List.pairwise_map.mp sorted'
  have right : seq.Pairwise (·.1 < ·.1) := List.pairwise_map.mp sorted
  exact h.perm_topologicalOps.symm.eq_of_pairwise (fun a b _ _ h₁ h₂ => (Nat.lt_asymm h₁ h₂).elim)
    left right

-- Following a wire through its track ends in its output.
theorem defectFrom?_eq_none (h : d.Serial seq) (he : e ∈ d.wires) {u v : List Nat}
    (split : track (onWire · seq) e = u ++ n :: v) {fuel : Nat} (len : v.length ≤ fuel) :
    d.wiring.defectFrom? e.wire e.output fuel n = none := by
  induction v generalizing u n fuel
  case nil =>
    have last : n = e.output := by
      have := congrArg List.getLast? split
      simpa [track, List.getLast?_cons] using this.symm
    rw [last]
    cases fuel <;> simp [Wiring.defectFrom?]
  case cons m v hi =>
    cases fuel
    case zero => simp at len
    case succ fuel =>
      rw [Wiring.defectFrom?]
      split
      case isTrue => rfl
      case isFalse =>
        have hop : (n, m) ∈ hops (track (onWire · seq) e) := mem_hops_iff.mpr ⟨u, v, split⟩
        have next : d.wiring.successor? n e.wire = some m :=
          (d.graph.wiring_successor? n e.wire).trans ((h.laid.successor?_eq_some_iff he).mpr hop)
        simp only [next]
        exact hi (u := u ++ [n]) (by simp [split]) (by simpa using len)

theorem checkWires (h : d.Serial seq) : d.checkWires = .ok () := by
  have none : d.wireDefects = [] := by
    refine List.filterMap_eq_nil_iff.mpr fun e he => ?_
    have le : (track (onWire · seq) e).length ≤ (d.listing seq).length :=
      (track_sublist he).length_le
    rw [h.perm_nodes.length_eq] at le
    have := h.defectFrom?_eq_none (u := []) he rfl (Nat.le_of_succ_le le)
    simp only [this, Option.map_none]
  simp only [Dag.checkWires, none]

-- The edges at an operation on one side of it: one for each of its wires.
theorem perm_of_edges (h : d.Serial seq) (hx : (n, i) ∈ seq) {edges : List Edge}
    (nodup : edges.Nodup) (inj : ∀ x ∈ edges, ∀ y ∈ edges, x.wire = y.wire → x = y)
    (mem : ∀ w, (∃ x ∈ edges, x.wire = w) ↔ d.hasWire w ∧ n ∈ onWire w seq) :
    (edges.map Edge.wire).Perm i.wires := by
  have ⟨nodup_wires, exist, on⟩ := h.wires_of_mem hx
  refine (List.perm_ext_iff_of_nodup (.map_on inj nodup) nodup_wires).mpr fun w => ?_
  rw [List.mem_map, mem]
  constructor
  case mp =>
    intro ⟨hw, hn⟩
    have ⟨e, he, eq⟩ := hasWire_iff.mp hw
    exact eq ▸ (on e he).mp (eq ▸ hn)
  case mpr => exact fun hw => ⟨exist w hw, mem_onWire.mpr ⟨i, hx, hw⟩⟩

theorem perm_incoming (h : d.Serial seq) (hx : (n, i) ∈ seq) :
    ((d.graph.incoming n).map Edge.wire).Perm i.wires := by
  have op : (d.instruction? n).isSome := by simp [(h.mem_iff n i).mp hx]
  refine h.perm_of_edges hx (h.laid.edges_nodup.filter _) ?_ fun w => ?_
  case refine_1 =>
    intro x hx y hy eq
    simp only [Graph.incoming, List.mem_filter, beq_iff_eq] at hx hy
    exact h.laid.target_unique x hx.1 y hy.1 (hx.2.trans hy.2.symm) eq
  case refine_2 =>
    simp only [Graph.incoming, List.mem_filter, beq_iff_eq]
    constructor
    case mp =>
      rintro ⟨x, ⟨mem, rfl⟩, rfl⟩
      have ⟨e, he, eq, hop⟩ := (h.laid.mem_edges x).mp mem
      exact eq ▸ ⟨hasWire_iff.mpr ⟨e, he, rfl⟩,
        (h.laid.mem_track_iff he op).mp (mem_of_mem_hops hop).2⟩
    case mpr =>
      intro ⟨hw, hn⟩
      have ⟨p, _, pred, _⟩ := h.laid.exists_link hw hn
      exact ⟨⟨p, n, w⟩, ⟨Graph.mem_edges_of_predecessor? pred, rfl⟩, rfl⟩

theorem perm_outgoing (h : d.Serial seq) (hx : (n, i) ∈ seq) :
    ((d.graph.outgoing n).map Edge.wire).Perm i.wires := by
  have op : (d.instruction? n).isSome := by simp [(h.mem_iff n i).mp hx]
  refine h.perm_of_edges hx (h.laid.edges_nodup.filter _) ?_ fun w => ?_
  case refine_1 =>
    intro x hx y hy eq
    simp only [Graph.outgoing, List.mem_filter, beq_iff_eq] at hx hy
    exact h.laid.source_unique x hx.1 y hy.1 (hx.2.trans hy.2.symm) eq
  case refine_2 =>
    simp only [Graph.outgoing, List.mem_filter, beq_iff_eq]
    constructor
    case mp =>
      rintro ⟨x, ⟨mem, rfl⟩, rfl⟩
      have ⟨e, he, eq, hop⟩ := (h.laid.mem_edges x).mp mem
      exact eq ▸ ⟨hasWire_iff.mpr ⟨e, he, rfl⟩,
        (h.laid.mem_track_iff he op).mp (mem_of_mem_hops hop).1⟩
    case mpr =>
      intro ⟨hw, hn⟩
      have ⟨_, s, _, succ, _⟩ := h.laid.exists_link hw hn
      exact ⟨⟨n, s, w⟩, ⟨Graph.mem_edges_of_successor? succ, rfl⟩, rfl⟩

end Serial

theorem mem_opNodes_iff : (n, i) ∈ d.opNodes ↔ d.instruction? n = some i := by
  rw [opNodes, ← opsAt, mem_opsAt, Graph.mem_nodes]
  exact ⟨And.right, fun hi => ⟨isSome_of_instruction? (by simp [hi]), hi⟩⟩

theorem lists_opNodes : d.Lists d.opNodes where
  nodup := by
    rw [opNodes, ← opsAt, map_fst_opsAt]
    exact (d.graph.nodes_sorted.imp Nat.ne_of_lt).filter _
  mem_iff _ _ := mem_opNodes_iff

-- A graph with a serial order is sound.
theorem Serial.verify (h : d.Serial seq) : d.verify = .ok () := by
  have ops : (d.opNodes.forM fun x => d.wiring.checkOp x.1 x.2) = .ok () := by
    refine forM_eq_ok_iff.mpr ?_
    rintro ⟨n, i⟩ hx
    have hx := (h.mem_iff n i).mpr (mem_opNodes_iff.mp hx)
    have incoming : d.wiring.incoming n = d.graph.incoming n := d.graph.wiring_incoming n
    have outgoing : d.wiring.outgoing n = d.graph.outgoing n := d.graph.wiring_outgoing n
    have before : (d.graph.incoming n).length = i.wires.length := by
      simpa using (h.perm_incoming hx).length_eq
    have after : (d.graph.outgoing n).length = i.wires.length := by
      simpa using (h.perm_outgoing hx).length_eq
    simp only [Wiring.checkOp, incoming, outgoing, before, after, and_self, if_true]
  simp only [Dag.verify, h.length_order, h.checkWires, ne_eq, not_true, if_false]
  exact ops

end CircuitRouting.Dag
