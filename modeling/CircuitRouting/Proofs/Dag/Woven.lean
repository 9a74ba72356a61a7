import CircuitRouting.Proofs.Dag.Made

/-!
# Graphs woven by their qubits

In a reachable graph that passes the checks, the wires of all qubits follow one order of the operations,
and no classical wire touches an operation without classical bits. Where operations that listed a
classical bit twice are gone, a classical wire may still hold more edges than it needs, so the graph
need not have a serial order. Yet an operation without classical bits can be removed, and the classical
wires do not notice.
-/

namespace CircuitRouting

namespace Wiring

variable {x y : Wiring} {w : Wire} {fuel n m : Nat}

-- Whatever is met on a wire comes after something.
theorem exists_of_mem_opsFrom (h : m ∈ x.opsFrom w fuel (x.successor? n w)) :
    ∃ k, x.successor? k w = some m := by
  induction fuel generalizing n
  case zero => simp [opsFrom] at h
  case succ fuel hi =>
    cases next : x.successor? n w <;> rw [next] at h
    case none => simp [opsFrom] at h
    case some k =>
      rw [opsFrom] at h
      split at h
      case isFalse => simp at h
      case isTrue =>
        cases List.mem_cons.mp h
        case inl eq => exact ⟨n, eq ▸ next⟩
        case inr h => exact hi h

theorem opsFrom_congr (next : ∀ k, x.successor? k w = y.successor? k w)
    (ops : ∀ k m, y.successor? k w = some m → x.instruction? m = y.instruction? m) :
    x.opsFrom w fuel (x.successor? n w) = y.opsFrom w fuel (y.successor? n w) := by
  induction fuel generalizing n
  case zero => rfl
  case succ fuel hi =>
    rw [next]
    cases found : y.successor? n w
    case none => rfl
    case some m => rw [opsFrom, opsFrom, ops n m found, hi]

end Wiring

namespace Dag

variable {d d' : Dag} {n m q c : Nat} {i : Instruction} {w : Wire} {e : WireEnds}
  {seq s : List (Nat × Instruction)}

theorem onWire_filter (w : Wire) (n : Nat) :
    onWire w (seq.filter (·.1 ≠ n)) = (onWire w seq).filter (· ≠ n) := by
  simp [onWire, List.filter_map, List.filter_filter, Function.comp_def, Bool.and_comm]

-- Taking out the only operation with a number.
theorem filter_ne_append_cons {l r : List (Nat × Instruction)}
    (nodup : ((l ++ (n, i) :: r).map Prod.fst).Nodup) :
    (l ++ (n, i) :: r).filter (·.1 ≠ n) = l ++ r := by
  rw [List.map_append, List.map_cons, List.nodup_middle, List.nodup_cons, ← List.map_append] at nodup
  have other : ∀ x ∈ l ++ r, x.1 ≠ n := by
    rintro x hx rfl
    exact nodup.1 (List.mem_map.mpr ⟨x, hx, rfl⟩)
  rw [List.filter_append, List.filter_cons_of_neg (by simp), ← List.filter_append,
    List.filter_eq_self.mpr fun x hx => by simpa using other x hx]

theorem onWire_opsAt
    (same : ∀ x ∈ s, w ∈ x.2.wires ↔ ∃ i, d.instruction? x.1 = some i ∧ w ∈ i.wires) :
    onWire w (d.opsAt (s.map Prod.fst)) = onWire w s := by
  induction s
  case nil => rfl
  case cons x s hi =>
    have ⟨here, later⟩ := List.forall_mem_cons.mp same
    rw [onWire_cons, ← hi later, List.map_cons]
    cases found : d.instruction? x.1
    case none =>
      have skip : d.opsAt (x.1 :: s.map Prod.fst) = d.opsAt (s.map Prod.fst) := by simp [opsAt, found]
      simp only [found, reduceCtorEq, false_and, exists_false, iff_false] at here
      rw [skip, if_neg here, List.nil_append]
    case some i =>
      have take : d.opsAt (x.1 :: s.map Prod.fst) = (x.1, i) :: d.opsAt (s.map Prod.fst) := by
        simp [opsAt, found]
      simp only [found, Option.some.injEq, exists_eq_left'] at here
      simp only [take, onWire_cons, here]

-- What a graph that passes the checks has at each operation.
theorem length_of_verify (h : d.verify = .ok ()) (hi : d.instruction? n = some i) :
    (d.graph.incoming n).length = i.wires.length ∧ (d.graph.outgoing n).length = i.wires.length := by
  rw [verify] at h
  obtain ⟨_, h⟩ := refuse_eq_ok_iff.mp h
  obtain ⟨_, _, h⟩ := bind_eq_ok_iff.mp h
  have checked := forM_eq_ok_iff.mp h (n, i) (mem_opNodes_iff.mpr hi)
  have incoming : d.wiring.incoming n = d.graph.incoming n := d.graph.wiring_incoming n
  have outgoing : d.wiring.outgoing n = d.graph.outgoing n := d.graph.wiring_outgoing n
  simp only [Wiring.checkOp, incoming, outgoing] at checked
  split at checked
  case isTrue counts => exact counts
  case isFalse => contradiction

-- The wires of the qubits follow the order; the classical wires lead around what has no classical bits.
structure Woven (d : Dag) (seq : List (Nat × Instruction)) : Prop where
  nodup : (seq.map Prod.fst).Nodup
  mem_iff : ∀ n i, (n, i) ∈ seq ↔ d.instruction? n = some i
  quantum : ∃ s, d.quantum.Serial s ∧ ∀ q, onWire (.qubit q) s = onWire (.qubit q) seq
  complete : d.order.length = d.graph.nodes.length
  apart : ∀ n i, d.instruction? n = some i → i.clbits = [] → ∀ x ∈ d.graph.edges,
    x.source = n ∨ x.target = n → x.wire.isQubit

theorem Reachable.exists_woven (h : d.Reachable) (ok : d.verify = .ok ()) : ∃ seq, d.Woven seq := by
  obtain ⟨s, serial⟩ := h.exists_serial_quantum
  have listed : ∀ {n i}, d.instruction? n = some i → (n, i.blank) ∈ s := fun hi =>
    (serial.mem_iff _ _).mpr (instruction?_quantum hi)
  refine ⟨d.opsAt (s.map Prod.fst), ?_, fun n i => ?_, ⟨s, serial, fun q => ?_⟩,
    length_order_of_verify ok, fun n i hi bare x hx touch => ?_⟩
  case refine_1 =>
    rw [map_fst_opsAt]
    exact serial.nodup.filter _
  case refine_2 =>
    rw [mem_opsAt]
    exact ⟨And.right, fun hi => ⟨List.mem_map_of_mem (listed hi), hi⟩⟩
  case refine_3 =>
    exact (onWire_opsAt fun x hx => mem_wires_of_quantum ((serial.mem_iff _ _).mp hx)).symm
  case refine_4 =>
    -- There are as many edges as qubits, and as many edges on qubits.
    have all : ∀ es : List Edge, es.length = i.wires.length →
        ((es.filter (·.wire.isQubit)).map Edge.wire).Perm i.blank.wires → ∀ x ∈ es, x.wire.isQubit := by
      intro es count perm
      have part := perm.length_eq
      simp only [List.length_map, Instruction.wires_blank] at part
      simp only [Instruction.wires, bare, List.map_nil, List.append_nil, List.length_map] at count
      exact List.length_filter_eq_length_iff.mp (part.trans count.symm)
    obtain ⟨incoming, outgoing⟩ := length_of_verify ok hi
    cases touch
    case inl source =>
      have perm := Graph.outgoing_quantum d.graph n ▸ serial.perm_outgoing (listed hi)
      exact all _ outgoing perm x (by simp [Graph.outgoing, hx, source])
    case inr target =>
      have perm := Graph.incoming_quantum d.graph n ▸ serial.perm_incoming (listed hi)
      exact all _ incoming perm x (by simp [Graph.incoming, hx, target])

namespace Woven

theorem perm_topologicalOps (h : d.Woven seq) : seq.Perm d.topologicalOps :=
  Lists.perm ⟨h.nodup, h.mem_iff⟩ (lists_topologicalOps h.complete)

theorem nodup_qubits (h : d.Woven seq) (hn : (n, i) ∈ seq) : i.qubits.Nodup := by
  have ⟨s, serial, _⟩ := h.quantum
  have listed := (serial.mem_iff _ _).mpr (instruction?_quantum ((h.mem_iff n i).mp hn))
  exact (serial.fits _ listed).nodup

-- The next operation on a qubit is the next one on it in the order.
theorem successor?_eq_some_iff (h : d.Woven seq) (hn : (n, i) ∈ seq) (hq : q ∈ i.qubits)
    (op : (d.instruction? m).isSome) :
    d.successor? n (.qubit q) = some m ↔ (n, m) ∈ hops (onWire (.qubit q) seq) := by
  have ⟨s, serial, same⟩ := h.quantum
  have ⟨j, hj⟩ := Option.isSome_iff_exists.mp op
  have listed := (serial.mem_iff _ _).mpr (instruction?_quantum ((h.mem_iff n i).mp hn))
  rw [← same, ← successor?_quantum]
  exact serial.successor?_eq_some_iff listed (by simpa [Instruction.wires_blank] using hq)
    (Option.isSome_of_mem (instruction?_quantum hj))

theorem spun (h : d.Woven seq) : d.Spun seq :=
  ⟨⟨h.nodup, h.mem_iff⟩, h.quantum⟩

theorem reads (h : d.Woven seq) : d.Reads seq :=
  h.spun.reads

theorem exists_removeOp (h : d.Woven seq) (hn : (n, i) ∈ seq) (bare : i.clbits = []) :
    ∃ d', d.removeOp n = .ok (i, d') := by
  have ⟨l, r, split⟩ := List.append_of_mem hn
  have ⟨d', eq, _⟩ := (split ▸ h.spun).removeOp bare
  exact ⟨d', eq⟩

theorem removeOp (h : d.Woven seq) (eq : d.removeOp n = .ok (i, d')) (bare : i.clbits = []) :
    d'.Woven (seq.filter (·.1 ≠ n)) := by
  refine ⟨h.nodup.sublist (List.filter_sublist.map _), fun m j => ?_, ?_,
    length_order_removeOp h.complete eq, fun m j hj bare' x hx touch => ?_⟩
  case refine_1 =>
    rw [List.mem_filter, h.mem_iff]
    by_cases ne : m = n
    case pos => simp [ne, instruction?_removeOp_self eq]
    case neg => simp [ne, instruction?_removeOp eq ne]
  case refine_2 =>
    obtain ⟨s, serial, same⟩ := h.quantum
    obtain ⟨l, r, split, _, serial'⟩ := serial.of_removeOp (quantum_removeOp eq)
    refine ⟨l ++ r, serial', fun q => ?_⟩
    have nodup := serial.nodup
    rw [split] at nodup
    rw [onWire_filter, ← same, ← onWire_filter, split, filter_ne_append_cons nodup]
  case refine_3 =>
    have ne : m ≠ n := fun same => by simp [same, instruction?_removeOp_self eq] at hj
    rw [instruction?_removeOp eq ne] at hj
    cases mem_edges_removeOp eq hx
    case inl old => exact h.apart m j hj bare' x old.1 touch
    case inr new =>
      have wire := new.1
      rw [Instruction.wires, bare, List.map_nil, List.append_nil] at wire
      obtain ⟨q, _, eq⟩ := List.mem_map.mp wire
      exact eq ▸ rfl

-- A classical wire leads around the operation, before and after the removal.
theorem successor?_clbit (h : d.Woven seq) (eq : d.removeOp n = .ok (i, d')) (bare : i.clbits = [])
    (m c : Nat) : d'.successor? m (.clbit c) = d.successor? m (.clbit c) := by
  obtain ⟨found, ls, links, _, edges⟩ := removeOp_eq_ok eq
  have across : ((ls.map (Spliced.closing Link.pred)).reverse.find?
      fun x => x.source == m && x.wire == .clbit c) = none := by
    refine List.find?_eq_none.mpr fun x hx => ?_
    obtain ⟨l, hl, eq⟩ := List.mem_map.mp (List.mem_reverse.mp hx)
    have wire := (of_mem_links links hl).1
    rw [Instruction.wires, bare, List.map_nil, List.append_nil] at wire
    obtain ⟨q, _, qubit⟩ := List.mem_map.mp wire
    simp [← eq, Spliced.closing, ← qubit]
  have around : ∀ x ∈ d.graph.edges, x.source == m && x.wire == .clbit c →
      x.source != n && x.target != n := by
    intro x hx here
    simp only [Bool.and_eq_true, beq_iff_eq, bne_iff_ne] at here ⊢
    have off : ¬(x.source = n ∨ x.target = n) := fun touch => by
      simpa [here.2] using h.apart n i found bare x hx touch
    exact not_or.mp off
  simp only [Dag.successor?, Graph.successor?, edges, Graph.remove, List.find?_append, across,
    Option.none_or, find?_filter_of_imp around]

theorem not_successor?_clbit (h : d.Woven seq) (found : d.instruction? n = some i)
    (bare : i.clbits = []) : d.successor? m (.clbit c) ≠ some n := by
  intro next
  simpa using h.apart n i found bare _ (Graph.mem_edges_of_successor? next) (.inr rfl)

theorem notMem_wireOps_clbit (h : d.Woven seq) (found : d.instruction? n = some i)
    (bare : i.clbits = []) (c : Nat) : n ∉ d.wireOps (.clbit c) := by
  intro mem
  rw [wireOps, wireOpsBy] at mem
  split at mem
  case h_1 => simp at mem
  case h_2 =>
    obtain ⟨k, next⟩ := Wiring.exists_of_mem_opsFrom mem
    exact h.not_successor?_clbit found bare ((d.graph.wiring_successor? k _).symm.trans next)

theorem wireOps_clbit (h : d.Woven seq) (eq : d.removeOp n = .ok (i, d')) (bare : i.clbits = [])
    (c : Nat) : d'.wireOps (.clbit c) = d.wireOps (.clbit c) := by
  have ⟨found, _, _, kept, _⟩ := removeOp_eq_ok eq
  have size : d'.graph.slots.size = d.graph.slots.size := by simp [kept.slots, Graph.remove]
  have input : (d'.ends? (.clbit c)).map WireEnds.input = (d.ends? (.clbit c)).map WireEnds.input :=
    kept.map_input_ends?
  have follow : ∀ k fuel, d'.wiring.opsFrom (.clbit c) fuel (d'.wiring.successor? k (.clbit c)) =
      d.wiring.opsFrom (.clbit c) fuel (d.wiring.successor? k (.clbit c)) := by
    intro k fuel
    refine Wiring.opsFrom_congr (fun m => ?_) fun m m' next => ?_
    case refine_1 =>
      simp only [wiring, Graph.wiring_successor?]
      exact h.successor?_clbit eq bare m c
    case refine_2 =>
      rw [wiring, Graph.wiring_successor?] at next
      refine instruction?_removeOp eq ?_
      rintro rfl
      exact h.not_successor?_clbit found bare next
  rw [wireOps, wireOpsBy, wireOps, wireOpsBy, size]
  cases ends : d.ends? (.clbit c) <;> cases ends' : d'.ends? (.clbit c) <;>
    simp only [ends, ends', Option.map_some, Option.map_none, reduceCtorEq, Option.some.injEq] at input
  case none.none => rfl
  case some.some => simp only [input, follow]

end Woven

end Dag

end CircuitRouting
