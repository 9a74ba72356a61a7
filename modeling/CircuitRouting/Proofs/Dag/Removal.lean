import CircuitRouting.Proofs.Dag.Reachable

/-!
# Removing an operation from any graph

A removal takes out a node with its edges and joins its neighbours on each of its wires; the other
nodes, the ends of the wires and the other edges stay. What is joined was in order before, so a
topological order of all nodes stays one. The ends of the wires of a reachable graph are nodes of their
own, and so there are no more operations than `numOps` says.
-/

namespace CircuitRouting

namespace Dag

variable {d d' : Dag} {n m : Nat} {i : Instruction} {w : Wire} {ls : List Link} {l : Link} {x : Edge}
  {seq : List (Nat × Instruction)}

section Remove

theorem of_mem_links (h : d.links n i = .ok ls) (hl : l ∈ ls) :
    l.wire ∈ i.wires ∧ d.predecessor? n l.wire = some l.pred ∧ d.successor? n l.wire = some l.succ := by
  have ⟨w, hw, found⟩ := exists_left_of_forall₂ (mapM_eq_ok_iff.mp h) hl
  split at found
  case h_1 pred succ =>
    cases found
    exact ⟨hw, pred, succ⟩
  case h_2 => contradiction

theorem node?_removeOp (h : d.removeOp n = .ok (i, d')) (m : Nat) :
    d'.node? m = if m = n then none else d.node? m := by
  have ⟨found, _, _, kept, _⟩ := removeOp_eq_ok h
  have node : (d.graph.node? n).isSome := isSome_of_instruction? (by simp [found])
  exact (kept.node? m).trans (Graph.node?_remove node)

theorem instruction?_removeOp (h : d.removeOp n = .ok (i, d')) (ne : m ≠ n) :
    d'.instruction? m = d.instruction? m := by
  rw [instruction?_eq, node?_removeOp h, if_neg ne, instruction?_eq]

theorem instruction?_removeOp_self (h : d.removeOp n = .ok (i, d')) : d'.instruction? n = none := by
  rw [instruction?_eq, node?_removeOp h, if_pos rfl]
  rfl

-- An edge either was there before, away from the node, or leads across the gap.
theorem mem_edges_removeOp (h : d.removeOp n = .ok (i, d')) (hx : x ∈ d'.graph.edges) :
    x ∈ d.graph.edges ∧ x.source ≠ n ∧ x.target ≠ n ∨
      x.wire ∈ i.wires ∧ ⟨x.source, n, x.wire⟩ ∈ d.graph.edges ∧
        ⟨n, x.target, x.wire⟩ ∈ d.graph.edges := by
  have ⟨_, ls, links, _, edges⟩ := removeOp_eq_ok h
  rw [edges, List.mem_append, List.mem_reverse, List.mem_map] at hx
  cases hx
  case inl hx =>
    have ⟨l, hl, eq⟩ := hx
    have ⟨wire, pred, succ⟩ := of_mem_links links hl
    subst eq
    exact .inr ⟨wire, Graph.mem_edges_of_predecessor? pred, Graph.mem_edges_of_successor? succ⟩
  case inr hx => exact .inl (by simpa [Graph.remove] using hx)

-- What leads across the gap led forward through the node.
theorem length_order_removeOp (complete : d.order.length = d.graph.nodes.length)
    (h : d.removeOp n = .ok (i, d')) : d'.order.length = d'.graph.nodes.length := by
  rw [order, Graph.order_eq_peel]
  refine Graph.length_peel d.order.idxOf (d'.graph.nodes_sorted.imp Nat.ne_of_lt) fun x hx target => ?_
  have nodes : ∀ m, m ∈ d'.graph.nodes ↔ m ≠ n ∧ m ∈ d.order := by
    intro m
    have node : d'.graph.node? m = if m = n then none else d.node? m := node?_removeOp h m
    rw [Graph.mem_nodes, node, mem_order_of_length complete]
    split
    case isTrue eq => simp [eq]
    case isFalse ne => simp [ne]
  rw [nodes] at target ⊢
  cases mem_edges_removeOp h hx
  case inl old =>
    obtain ⟨source, lt⟩ := idxOf_order_lt old.1 target.2
    exact ⟨⟨old.2.1, source⟩, lt⟩
  case inr new =>
    obtain ⟨middle, lt⟩ := idxOf_order_lt new.2.2 target.2
    obtain ⟨source, lt'⟩ := idxOf_order_lt new.2.1 middle
    dsimp only at lt lt' source
    refine ⟨⟨fun eq => ?_, source⟩, lt'.trans lt⟩
    rw [eq] at lt'
    exact Nat.lt_irrefl _ lt'

end Remove

section Ends

-- The wires keep their ends, and nodes are only added.
theorem Ended.mono (h : d.Ended) (ends : d'.wires.map (fun e => (e.wire, e.input, e.output)) =
      d.wires.map fun e => (e.wire, e.input, e.output))
    (old : ∀ m x, d.node? m = some x → d'.node? m = some x) : d'.Ended := by
  refine ⟨?_, fun e he => ?_, fun e he => ?_⟩
  case refine_1 =>
    have names := congrArg (List.map Prod.fst) ends
    simp only [List.map_map, Function.comp_def] at names
    exact names ▸ h.wires
  case refine_2 =>
    have ⟨e', he', wire, input, _⟩ := exists_same_ends ends he
    exact old _ _ (wire ▸ input ▸ h.input e' he')
  case refine_3 =>
    have ⟨e', he', wire, _, output⟩ := exists_same_ends ends he
    exact old _ _ (wire ▸ output ▸ h.output e' he')

theorem Ended.addWire (h : d.Ended) (tidy : d.graph.Tidy) (w : Wire) : (d.addWire w).Ended := by
  by_cases hw : d.hasWire w
  case pos =>
    rw [addWire_of_hasWire hw]
    exact h
  case neg =>
    have ⟨input, output, added⟩ := exists_newWire tidy hw
    exact ⟨added.nodup_wires hw h.wires,
      added.forall_mem_wires.mpr ⟨fun e he => added.old (h.input e he), added.node?_input⟩,
      added.forall_mem_wires.mpr ⟨fun e he => added.old (h.output e he), added.node?_output⟩⟩

-- An operation is no end of a wire.
theorem Ended.remove (h : d.Ended) (op : (d.instruction? n).isSome) :
    Ended { d with graph := d.graph.remove n } := by
  have other : ∀ m x, d.node? m = some x → x.instruction? = none →
      (d.graph.remove n).node? m = some x := by
    intro m x hx none
    have ne : m ≠ n := by
      rintro rfl
      simp [instruction?_eq, hx, none] at op
    rw [Graph.node?_remove (isSome_of_instruction? op), if_neg ne]
    exact hx
  exact ⟨h.wires, fun e he => other _ _ (h.input e he) rfl, fun e he => other _ _ (h.output e he) rfl⟩

theorem Reachable.ended (h : d.Reachable) : d.Ended := by
  induction h
  case empty => exact ⟨.nil, fun _ he => (nomatch he), fun _ he => (nomatch he)⟩
  case addQubit reachable hi => exact hi.addWire reachable.braced.marked.tidy _
  case addClbit reachable hi => exact hi.addWire reachable.braced.marked.tidy _
  case setLevel hi => exact ⟨hi.wires, hi.input, hi.output⟩
  case apply d d' i n reachable eq hi =>
    have tidy := reachable.braced.marked.tidy
    have kept := kept_of_append (append_of_apply eq)
    refine hi.mono kept.ends fun m x hx => (kept.node? m).trans ?_
    exact (tidy.node?_add_of_isSome _ (Option.isSome_of_mem hx)).trans hx
  case removeOp eq hi =>
    obtain ⟨found, _, _, kept, _⟩ := removeOp_eq_ok eq
    exact (hi.remove (Option.isSome_of_mem found)).mono kept.ends fun m x hx => (kept.node? m).trans hx
  case substitute d d' is n ns reachable eq hi =>
    obtain ⟨i, ls, found, _, _, spliced⟩ := substitute_eq_ok eq
    have op := Option.isSome_of_mem found
    obtain ⟨_, old⟩ := reachable.braced.marked.splice op ls is
    rw [spliced] at old
    have ends := ends_substitute eq
    exact (hi.remove op).mono ends old

theorem Ended.length_le_numOps (h : d.Ended) (nodup : (seq.map Prod.fst).Nodup)
    (ops : ∀ n ∈ seq.map Prod.fst, (d.instruction? n).isSome) : seq.length ≤ d.numOps := by
  have inside : d.listing seq ⊆ d.graph.nodes := by
    intro n hn
    rw [Graph.mem_nodes]
    simp only [listing, List.mem_append, List.mem_map] at hn
    rcases hn with ⟨e, he, rfl⟩ | hn | ⟨e, he, rfl⟩
    · exact Option.isSome_of_mem (h.input e he)
    · exact isSome_of_instruction? (ops n (by simpa using hn))
    · exact Option.isSome_of_mem (h.output e he)
  have le := ((h.nodup_listing nodup ops).subperm inside).length_le
  simp only [listing, List.length_append, List.length_map] at le
  rw [numOps]
  omega

end Ends

end Dag

end CircuitRouting
