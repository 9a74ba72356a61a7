import CircuitRouting.Proofs.Contraction
import CircuitRouting.Proofs.Dag.WireOps
import CircuitRouting.Proofs.Fusion.Blocks
import CircuitRouting.Proofs.Pass.Expansion
import Mathlib.Data.List.Flatten

/-!
# What fusion writes

A run of one-qubit gates is a segment of its wire and one of the blocks there, and no gate is in two
runs. Fusion cannot fail. Each run that it changes gives way to what its block is fused into.
-/

namespace CircuitRouting

-- A fused gate is one of three, of which a basis has those that it lists.
theorem Gate.of_synthesize {basis : Basis} {u : Unitary} {g : Gate}
    (h : g ∈ synthesize basis u) :
    g.arity = 1 ∧ (g.name = "u3" ∨ basis.contains g.name) := by
  simp only [synthesize, Option.mem_def] at h
  split at h
  case isTrue => contradiction
  case isFalse =>
    split at h
    case isTrue has =>
      cases h
      simp only [Bool.and_eq_true] at has
      exact ⟨rfl, .inr has.2⟩
    case isFalse =>
      split at h
      case isTrue has =>
        cases h
        simp only [Bool.and_eq_true] at has
        exact ⟨rfl, .inr has.2⟩
      case isFalse =>
        cases h
        exact ⟨rfl, .inl rfl⟩

namespace Dag

variable {basis : Basis} {d d' : Dag} {seq : List (Nat × Instruction)} {n q : Nat} {i : Instruction}
  {w : Wire} {e : WireEnds} {current rest : List Nat} {u v : Unitary} {r : GateRun}

-- What a node of a run is.
theorem of_unitary? (h : d.unitary? n = some v) :
    ∃ i g, d.instruction? n = some i ∧ i.action = .gate g ∧ i.qubits.length = 1 ∧
      Unitary.ofGate? g = some v := by
  rw [unitary?, Option.bind_eq_some_iff] at h
  have ⟨i, found, h⟩ := h
  have ⟨found, one⟩ := Option.filter_eq_some_iff.mp found
  have ⟨g, gate, matrix⟩ := Option.bind_eq_some_iff.mp h
  simp only [Instruction.isOneQubitGate, Bool.and_eq_true, beq_iff_eq] at one
  have action : i.action = .gate g := by
    rw [Instruction.gate?] at gate
    split at gate
    case h_1 eq =>
      cases gate
      exact eq
    case h_2 => contradiction
  exact ⟨i, g, found, action, one.2, matrix⟩

-- The runs of a wire, one after the other, leave out what is no one-qubit gate.
theorem runsFrom_sublist (current : List Nat) :
    ((d.runsFrom q current u rest).flatMap GateRun.nodes).Sublist (current ++ rest) := by
  induction rest generalizing current u
  case nil => simp [runsFrom]
  case cons n rest hi =>
    rw [runsFrom]
    split
    case h_1 v _ => simpa using hi (current ++ [n]) (u := v * u)
    case h_2 =>
      rw [List.flatMap_cons]
      exact (List.Sublist.refl _).append ((hi []).cons n)

theorem of_mem_runsFrom (h : r ∈ d.runsFrom q current u rest)
    (matrices : ∀ n ∈ current, (d.unitary? n).isSome) :
    r.qubit = q ∧ r.nodes <:+: current ++ rest ∧ ∀ n ∈ r.nodes, (d.unitary? n).isSome := by
  induction rest generalizing current u
  case nil =>
    cases List.mem_singleton.mp h
    exact ⟨rfl, ⟨[], [], by simp⟩, matrices⟩
  case cons n rest hi =>
    rw [runsFrom] at h
    split at h
    case h_1 v eq =>
      have ⟨qubit, part, rest⟩ := hi h <| List.forall_mem_append.mpr ⟨matrices, by simp [eq]⟩
      exact ⟨qubit, by simpa using part, rest⟩
    case h_2 =>
      cases List.mem_cons.mp h
      case inl eq =>
        subst eq
        exact ⟨rfl, ⟨[], n :: rest, by simp⟩, matrices⟩
      case inr h =>
        have ⟨qubit, ⟨a, b, eq⟩, rest⟩ := hi h (by simp)
        rw [List.nil_append] at eq
        exact ⟨qubit, ⟨current ++ n :: a, b, by simp [← eq]⟩, rest⟩

theorem unitary?_eq (op : d.instruction? n = some i) :
    d.unitary? n = if i.isOneQubitGate then i.matrix? else none := by
  rw [unitary?, op, Option.filter]
  split <;> rfl

-- A run is a block of its wire, with the product of that block.
theorem block_of_mem_runsFrom (current : List (Nat × Instruction)) {rest : List (Nat × Instruction)}
    (h : r ∈ d.runsFrom q (current.map Prod.fst) (Instruction.product (current.map Prod.snd))
      (rest.map Prod.fst))
    (ops : ∀ x ∈ rest, d.instruction? x.1 = some x.2) (proper : ∀ x ∈ rest, x.2.Proper)
    (gates : ∀ x ∈ current, x.2.isOneQubitGate) :
    ∃ part, part.map Prod.fst = r.nodes ∧ part.Sublist (current ++ rest) ∧
      (∀ x ∈ part, x.2.isOneQubitGate) ∧ r.product = Instruction.product (part.map Prod.snd) ∧
      (part ≠ [] →
        part.map Prod.snd ∈ ((current ++ rest).map Prod.snd).splitBy Instruction.fuses) := by
  have gates' : ∀ i ∈ current.map Prod.snd, i.isOneQubitGate := List.forall_mem_map.mpr gates
  induction rest generalizing current
  case nil =>
    cases List.mem_singleton.mp h
    refine ⟨current, rfl, by simp, gates, rfl, fun ne => ?_⟩
    rw [List.append_nil, Instruction.splitBy_of_gates gates' (by simpa using ne)]
    exact List.mem_singleton_self _
  case cons x rest hi =>
    have ⟨op, ops⟩ := List.forall_mem_cons.mp ops
    have ⟨here, proper⟩ := List.forall_mem_cons.mp proper
    rw [List.map_cons, runsFrom, unitary?_eq op] at h
    cases one : x.2.isOneQubitGate
    case true =>
      obtain ⟨v, found⟩ := Option.isSome_iff_exists.mp (Instruction.isSome_matrix? here one)
      have later : ∀ y ∈ current ++ [x], y.2.isOneQubitGate :=
        List.forall_mem_append.mpr ⟨gates, by simpa using one⟩
      have next := hi (current ++ [x])
        (by simpa [one, found, Instruction.product_concat found] using h) ops proper later
        (List.forall_mem_map.mpr later)
      simpa using next
    case false =>
      simp only [one, Bool.false_eq_true, if_false, List.mem_cons] at h
      rw [List.map_append, List.map_cons, Instruction.splitBy_of_other one]
      cases h
      case inl eq =>
        subst eq
        refine ⟨current, rfl, List.sublist_append_left _ _, gates, rfl, fun ne => ?_⟩
        rw [Instruction.splitBy_of_gates gates' (by simpa using ne)]
        simp
      case inr h =>
        obtain ⟨part, nodes, sub, one, product, block⟩ := hi [] h ops proper (by simp) (by simp)
        refine ⟨part, nodes, (sub.cons x).trans (List.sublist_append_right _ _), one, product, fun ne => ?_⟩
        exact List.mem_append_right _ (.tail _ (block ne))

theorem Reads.mem_fusableRuns (h : d.Reads seq) :
    r ∈ d.fusableRuns ↔ r.isFusable ∧ ∃ q, d.hasWire (.qubit q) ∧
      r ∈ d.runsFrom q [] .identity (onWire (.qubit q) seq) := by
  simp only [fusableRuns, List.mem_filter, List.mem_flatMap, mem_qubits]
  rw [and_comm]
  refine and_congr_right fun _ => exists_congr fun q => and_congr_right fun hq => ?_
  rw [← Dag.wireOps, h.wireOps]

-- A node of a run on a wire is a one-qubit gate on the qubit of the wire.
theorem Reads.gate_of_unitary? (h : d.Reads seq) (hn : n ∈ onWire (.qubit q) seq) {v : Unitary}
    (matrix : d.unitary? n = some v) :
    ∃ i g, (n, i) ∈ seq ∧ i.action = .gate g ∧ i.qubits = [q] ∧ Unitary.ofGate? g = some v := by
  have ⟨i, g, found, action, one, eq⟩ := of_unitary? matrix
  have ⟨j, hj, hq⟩ := mem_onWire.mp hn
  have same := (h.mem_iff n j).mp hj
  rw [found, Option.some.injEq] at same
  subst same
  have ⟨p, qubits⟩ := List.length_eq_one_iff.mp one
  have : q = p := by simpa [Instruction.wires, qubits] using hq
  exact ⟨i, g, hj, action, this ▸ qubits, eq⟩

theorem Reads.of_mem_fusableRuns (h : d.Reads seq) (hr : r ∈ d.fusableRuns) :
    r.isFusable ∧ r.nodes <:+: onWire (.qubit r.qubit) seq ∧ d.hasWire (.qubit r.qubit) ∧
      r ∈ d.runsFrom r.qubit [] .identity (onWire (.qubit r.qubit) seq) ∧
      ∀ n ∈ r.nodes, ∃ i g, (n, i) ∈ seq ∧ i.action = .gate g ∧ i.qubits = [r.qubit] := by
  have ⟨fusable, q, hq, hr⟩ := h.mem_fusableRuns.mp hr
  have ⟨qubit, part, matrices⟩ := of_mem_runsFrom hr (by simp)
  subst qubit
  rw [List.nil_append] at part
  refine ⟨fusable, part, hq, hr, fun n hn => ?_⟩
  have ⟨v, matrix⟩ := Option.isSome_iff_exists.mp (matrices n hn)
  have ⟨i, g, mem, action, qubits, _⟩ := h.gate_of_unitary? (part.subset hn) matrix
  exact ⟨i, g, mem, action, qubits⟩

-- No node is in two runs.
theorem Reads.nodup_fusableRuns (h : d.Reads seq) :
    (d.fusableRuns.flatMap GateRun.nodes).Nodup := by
  have all : ((d.qubits.flatMap fun q =>
      d.runsFrom q [] .identity (d.wireOpsBy d.wiring (.qubit q))).flatMap GateRun.nodes).Nodup := by
    rw [List.flatMap_assoc]
    refine List.nodup_flatMap.mpr ⟨fun q hq => ?_, ?_⟩
    case refine_1 =>
      rw [← Dag.wireOps, h.wireOps]
      exact (h.nodup.sublist onWire_sublist).sublist (runsFrom_sublist [])
    case refine_2 =>
      have distinct : d.qubits.Pairwise (· ≠ ·) :=
        (natLt_separating.pairwise_sortUnique _).imp fun lt eq => by simp [natLt, eq] at lt
      refine distinct.imp_of_mem fun {q q'} hq hq' ne n hn hn' => ne ?_
      have qubit : ∀ q ∈ d.qubits, n ∈ (d.runsFrom q [] .identity
          (d.wireOpsBy d.wiring (.qubit q))).flatMap GateRun.nodes →
          ∃ i, (n, i) ∈ seq ∧ i.qubits = [q] := by
        intro q hq hn
        rw [← Dag.wireOps, h.wireOps] at hn
        obtain ⟨r, hr, hn⟩ := List.mem_flatMap.mp hn
        obtain ⟨_, part, matrices⟩ := of_mem_runsFrom hr (by simp)
        obtain ⟨v, matrix⟩ := Option.isSome_iff_exists.mp (matrices n hn)
        obtain ⟨i, _, mem, _, qubits, _⟩ :=
          h.gate_of_unitary? ((runsFrom_sublist []).subset (List.mem_flatMap.mpr ⟨r, hr, hn⟩)) matrix
        exact ⟨i, mem, qubits⟩
      obtain ⟨i, mem, eq⟩ := qubit q hq hn
      obtain ⟨j, mem', eq'⟩ := qubit q' hq' hn'
      cases eq_of_fst_eq h.nodup mem mem' rfl
      simpa [eq] using eq'
  exact all.sublist (List.filter_sublist.flatMap _)

theorem map_node_fusion (basis : Basis) (r : GateRun) :
    (fusion basis r).map Revision.node = r.nodes := by
  rw [fusion]
  split
  case h_1 eq => simp [eq]
  case h_2 eq => simp [eq, Revision.node, Function.comp_def]

-- The first gate of a run gives way to the synthesized one, if there is one, and the others to none.
theorem written_of_mem_fusion {rev : Revision} (hr : rev ∈ fusion basis r) :
    rev.written = (Gate.synthesize basis r.product).toList.map (Instruction.gate · [r.qubit]) ∨
      rev.written = [] := by
  rw [fusion] at hr
  split at hr
  case h_1 => simp at hr
  case h_2 =>
    simp only [List.mem_cons, List.mem_map] at hr
    rcases hr with rfl | ⟨n, _, rfl⟩
    · left
      cases Gate.synthesize basis r.product <;> simp [Revision.written]
    · exact .inr rfl

theorem of_mem_written_fusion {rev : Revision} {j : Instruction} (hr : rev ∈ fusion basis r)
    (hj : j ∈ rev.written) : ∃ g ∈ Gate.synthesize basis r.product, j = .gate g [r.qubit] := by
  rcases written_of_mem_fusion hr with eq | eq
  · rw [eq, List.mem_map] at hj
    obtain ⟨g, found, eq⟩ := hj
    exact ⟨g, Option.mem_toList.mp found, eq.symm⟩
  · simp [eq] at hj

-- The revisions of all runs fit one-qubit gates, each of them another.
theorem Reads.nodup_fusions (h : d.Reads seq) (basis : Basis) :
    ((d.fusableRuns.flatMap (fusion basis)).map Revision.node).Nodup := by
  rw [List.map_flatMap, List.flatMap_congr fun r _ => map_node_fusion basis r]
  exact h.nodup_fusableRuns

theorem Reads.of_mem_fusions {rev : Revision} (h : d.Reads seq)
    (hr : rev ∈ d.fusableRuns.flatMap (fusion basis)) :
    ∃ i g q, (rev.node, i) ∈ seq ∧ i.action = .gate g ∧ i.qubits = [q] ∧ rev.Fits d i := by
  obtain ⟨r, hr, hv⟩ := List.mem_flatMap.mp hr
  obtain ⟨_, _, wire, _, gates⟩ := h.of_mem_fusableRuns hr
  obtain ⟨i, g, hi, action, qubits⟩ := gates rev.node (map_node_fusion basis r ▸ List.mem_map_of_mem hv)
  refine ⟨i, g, r.qubit, hi, action, qubits, fun j hj => ?_⟩
  obtain ⟨g, found, eq⟩ := of_mem_written_fusion hv hj
  obtain ⟨arity, _⟩ := Gate.of_synthesize found
  subst eq
  refine ⟨fitsOnce_gate (by simp [arity]) (by simp) (by simpa using wire), ?_⟩
  simp [Instruction.wires, Instruction.gate, qubits]

-- What fusion writes for a block on the wire of a qubit.
def Fused (basis : Basis) (d : Dag) (block out : List Instruction) : Prop :=
  ∃ q, block ∈ (d.wireInstructions (.qubit q)).splitBy Instruction.fuses ∧
    out = Instruction.fuseBlock basis q block

-- A run without classical bits is a segment that gives way to what its block is fused into.
theorem Serial.contracts_fusion (h : d.Serial seq) (hr : r ∈ d.fusableRuns)
    (plain : ∀ i ∈ seq.map Prod.snd, i.Plain) : Contracts (d.Fused basis) seq (fusion basis r) := by
  obtain ⟨fusable, tight, _, run, gates⟩ := h.reads.of_mem_fusableRuns hr
  rw [onWire_qubit] at run
  have on : ∀ x ∈ seq.filter (r.qubit ∈ ·.2.qubits), x ∈ seq := fun x hx => List.mem_of_mem_filter hx
  obtain ⟨part, nodes, sub, one, product, block⟩ := block_of_mem_runsFrom [] run
    (fun x hx => (h.mem_iff _ _).mp (on x hx)) (fun x hx => (h.fits x (on x hx)).proper) (by simp)
  rw [List.nil_append] at sub block
  rw [← h.reads.wireInstructions_qubit] at block
  have inside : ∀ x ∈ part, x ∈ seq := fun x hx => on x (sub.subset hx)
  have wires : ∀ x ∈ part, ∀ w, w ∈ x.2.wires ↔ w ∈ [Wire.qubit r.qubit] := by
    rintro ⟨n, j⟩ hx w
    obtain ⟨i, g, mem, action, qubits⟩ := gates n (nodes ▸ List.mem_map_of_mem hx)
    cases eq_of_fst_eq h.nodup (inside _ hx) mem rfl
    simp [(plain j (List.mem_map_of_mem mem)).eq_gate action qubits, Instruction.wires, Instruction.gate]
  have written := Instruction.fuseBlock_of_isFusable (q := r.qubit) basis r.nodes (product ▸ fusable)
    (by simp [← nodes]) (List.forall_mem_map.mpr one)
  rw [← product] at written
  cases part
  case nil => simp [GateRun.isFusable, ← nodes] at fusable
  case cons x part =>
    rw [fusion, ← nodes, List.map_cons]
    refine .intro [.qubit r.qubit] (.qubit r.qubit) x part (by simp) ⟨inside, wires, ?_⟩ rfl ?_ ?_ ?_ ?_
      fun a b => .rewrite a b ⟨r.qubit, block (by simp), written.symm⟩
    case refine_1 => simpa [nodes] using tight
    case refine_2 => simp [Revision.node, Function.comp_def]
    case refine_3 =>
      intro rev hv
      obtain ⟨n, _, eq⟩ := List.mem_map.mp hv
      exact eq ▸ rfl
    case refine_4 =>
      simp only [Revision.written]
      cases Gate.synthesize basis r.product <;> simp
    case refine_5 =>
      intro j hj w hw
      simp only [Revision.written, Option.mem_toList, Option.map_eq_some_iff] at hj
      obtain ⟨g, _, eq⟩ := hj
      simpa [← eq, Instruction.wires, Instruction.gate] using hw

theorem Serial.fuseAll (h : d.Serial seq) (basis : Basis) :
    ∃ d' seq', d.fuseAll basis = (.ok (), d') ∧ d.Alike d' ∧ d'.Serial seq' ∧
      (∀ i ∈ seq'.map Prod.snd, i ∈ seq.map Prod.snd ∨
        ∃ q u, ∃ g ∈ Gate.synthesize basis u, i = .gate g [q]) ∧
      ((∀ i ∈ seq.map Prod.snd, i.Plain) →
        Simplifies (d.Fused basis) (seq.map Prod.snd) (seq'.map Prod.snd)) := by
  have nodup := h.reads.nodup_fusions basis
  obtain ⟨d', seq', eq, alike, serial, written⟩ := h.reviseAll nodup fun rev hr =>
    have ⟨i, _, _, hi, _, _, fits⟩ := h.reads.of_mem_fusions hr
    ⟨i, hi, fits⟩
  refine ⟨d', seq', eq, alike, serial, fun i hi => ?_, fun plain => ?_⟩
  case refine_1 =>
    rw [written] at hi
    obtain ⟨x, hx, hi⟩ := List.mem_flatMap.mp hi
    rw [revised] at hi
    split at hi
    case h_1 rev found =>
      obtain ⟨r, _, hv⟩ := List.mem_flatMap.mp (List.mem_of_find?_eq_some found)
      obtain ⟨g, found, eq⟩ := of_mem_written_fusion hv hi
      exact .inr ⟨r.qubit, r.product, g, found, eq⟩
    case h_2 => exact .inl (List.mem_singleton.mp hi ▸ List.mem_map_of_mem hx)
  case refine_2 =>
    rw [written]
    rw [List.flatMap] at nodup ⊢
    refine Contracts.simplifies_all h.nodup nodup fun revs hr => ?_
    obtain ⟨r, hr, eq⟩ := List.mem_map.mp hr
    exact eq ▸ h.contracts_fusion hr plain

end Dag

end CircuitRouting
