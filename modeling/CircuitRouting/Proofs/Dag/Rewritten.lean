import CircuitRouting.Proofs.Circuit.Built
import CircuitRouting.Proofs.Dag.Traced

/-!
# Graphs that are written anew

A pass that rebuilds a graph appends instructions to bare wires. This cannot fail if they are valid, and
each of them gets a node. Those nodes are in the topological order, one behind the other, exactly if no
instruction lists a classical bit twice, and the checks pass exactly then.
-/

namespace CircuitRouting.Dag

variable {d d' : Dag} {path : Wire → List Nat} {is : List Instruction} {n : Nat} {i : Instruction}

theorem Reachable.applyAll (h : d.Reachable) (eq : d.applyAll is = .ok d') : d'.Reachable := by
  induction is generalizing d
  case nil =>
    cases eq
    exact h
  case cons i is hi =>
    have ⟨n, d₁, applied, rest⟩ := of_applyAll_cons eq
    exact hi (h.apply applied) rest

theorem Reachable.foldl_addQubit (h : d.Reachable) (qs : List Nat) :
    (qs.foldl Dag.addQubit d).Reachable := by
  induction qs generalizing d
  case nil => exact h
  case cons q qs hi => exact hi (h.addQubit q)

theorem Reachable.foldl_addClbit (h : d.Reachable) (cs : List Nat) :
    (cs.foldl Dag.addClbit d).Reachable := by
  induction cs generalizing d
  case nil => exact h
  case cons c cs hi => exact hi (h.addClbit c)

theorem Reachable.ofWires (qubits clbits : List Nat) (level : Level) :
    (ofWires qubits clbits level).Reachable :=
  ((Reachable.empty.setLevel level).foldl_addQubit qubits).foldl_addClbit clbits

-- Appended instructions get nodes of their own.
theorem exists_nodes_of_applyAll (t : d.graph.Tidy) (eq : d.applyAll is = .ok d') :
    ∃ new : List (Nat × Instruction), new.map Prod.snd = is ∧ (new.map Prod.fst).Nodup ∧
      (∀ x ∈ new, d.instruction? x.1 = none) ∧
      ∀ n i, d'.instruction? n = some i ↔ d.instruction? n = some i ∨ (n, i) ∈ new := by
  induction is generalizing d
  case nil =>
    cases eq
    exact ⟨[], rfl, .nil, by simp, by simp⟩
  case cons i is hi =>
    obtain ⟨n, d₁, applied, rest⟩ := of_applyAll_cons eq
    have appended := append_of_apply applied
    obtain ⟨fits, number, _⟩ := append_eq_ok appended
    have tidy : d₁.graph.Tidy := by simpa [appended] using tidy_append t i
    have here : ∀ m, d₁.instruction? m = if m = n then some i else d.instruction? m := fun m => by
      simpa [appended, number] using instruction?_append (n := m) t fits
    have free : d.instruction? n = none := by
      rw [instruction?_eq, node?, number, t.node?_nextNumber]
      rfl
    obtain ⟨new, snd, nodup, fresh, mem⟩ := hi tidy rest
    refine ⟨(n, i) :: new, by simp [snd], List.nodup_cons.mpr ⟨fun mem => ?_, nodup⟩,
      List.forall_mem_cons.mpr ⟨free, fun x hx => ?_⟩, fun m j => ?_⟩
    case refine_1 =>
      obtain ⟨x, hx, eq⟩ := List.mem_map.mp mem
      have := fresh x hx
      simp [eq, here] at this
    case refine_2 =>
      have := fresh x hx
      rw [here] at this
      split at this
      case isTrue => contradiction
      case isFalse => exact this
    case refine_3 =>
      rw [mem, here, List.mem_cons, Prod.mk.injEq]
      by_cases eq : m = n
      case pos => simp [eq, free, eq_comm]
      case neg => simp [eq]

-- Wires that can be traced can be extended, whatever is put on them.
theorem Traceable.applyAll (h : d.Traceable path) (fits : ∀ i ∈ is, d.Fits i) :
    ∃ d', d.applyAll is = .ok d' := by
  induction is generalizing d path
  case nil => exact ⟨d, rfl⟩
  case cons i is hi =>
    have ⟨here, later⟩ := List.forall_mem_cons.mp fits
    obtain ⟨d₁, eq, alike, _, h₁⟩ := h.append here
    have ⟨d', rest⟩ := hi h₁ fun j hj => (later j hj).congr fun w => (alike.hasWire w).mpr
    refine ⟨d', ?_⟩
    rw [Dag.applyAll, List.foldlM_cons, apply, eq]
    exact rest

theorem alike_of_applyAll (eq : d.applyAll is = .ok d') : d.Alike d' := by
  induction is generalizing d
  case nil =>
    cases eq
    exact .refl _
  case cons i is hi =>
    have ⟨_, _, applied, rest⟩ := of_applyAll_cons eq
    have kept := kept_of_append (append_of_apply applied)
    exact .trans ⟨kept.wireNames, kept.level⟩ (hi rest)

-- What comes just after itself is not in the order.
theorem Reachable.nodup_of_mem_instructions (h : d.Reachable) (hi : i ∈ d.instructions) :
    i.clbits.Nodup := by
  have ⟨⟨n, _⟩, hx, eq⟩ := List.mem_map.mp hi
  have ⟨ordered, op⟩ := mem_opsAt.mp hx
  cases eq
  by_contra twice
  exact notMem_order_of_loops (h.braced.marked.loops n _ op twice) ordered

-- The checks pass if and only if no instruction lists a classical bit twice.
theorem Written.verify_iff (bare : d.Written []) (h : d.Reachable) (eq : d.applyAll is = .ok d') :
    d'.verify = .ok () ↔ ∀ i ∈ is, i.clbits.Nodup := by
  constructor
  case mp =>
    intro ok i hi
    have ⟨new, snd, _, _, nodes⟩ := exists_nodes_of_applyAll bare.serial.laid.tidy eq
    rw [← snd] at hi
    have ⟨⟨n, _⟩, hx, same⟩ := List.mem_map.mp hi
    cases same
    exact (h.applyAll eq).nodup_clbits ok ((nodes n _).mpr (.inr hx))
  case mpr =>
    intro once
    have ⟨_, _, _, written⟩ := bare.of_applyAll once eq
    exact written.serial.verify

-- The order holds what was appended, if and only if no instruction lists a classical bit twice.
theorem Written.instructions_eq_iff (bare : d.Written []) (h : d.Reachable)
    (eq : d.applyAll is = .ok d') : d'.instructions = is ↔ ∀ i ∈ is, i.clbits.Nodup := by
  constructor
  case mp => exact fun same i hi => (h.applyAll eq).nodup_of_mem_instructions (same ▸ hi)
  case mpr =>
    intro once
    have ⟨_, new, snd, written⟩ := bare.of_applyAll once eq
    rw [written.instructions_eq, List.nil_append, snd]

end CircuitRouting.Dag
