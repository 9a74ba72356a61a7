import CircuitRouting.Pass.Cancellation
import CircuitRouting.Proofs.Contraction
import CircuitRouting.Proofs.Dag.WireOps

/-!
# What cancellation removes

The pairs of a round share no node, and each pair is a segment on the two wires of its controlled NOTs.
A round, and so all rounds, cannot fail and only drop such pairs.
-/

namespace CircuitRouting

namespace Wiring

variable {x : Wiring} {taken : List Nat} {ops : List (Nat × Instruction)} {n next : Nat}
  {i : Instruction}

-- A partner is a controlled NOT on the same qubits, just after the other on both wires.
theorem of_partner? (h : x.partner? n i = some next) :
    ∃ c t j, i.action = .gate .cx ∧ i.qubits = [c, t] ∧
      x.successor? n (.qubit c) = some next ∧ x.successor? n (.qubit t) = some next ∧
      x.instruction? next = some j ∧ j.action = .gate .cx ∧ j.qubits = [c, t] := by
  rw [partner?] at h
  split at h
  case h_2 => contradiction
  case h_1 c t action qubits =>
    split at h
    case h_1 => contradiction
    case h_2 m first =>
      split at h
      case isFalse => contradiction
      case isTrue second =>
        split at h
        case h_2 => contradiction
        case h_1 j found =>
          split at h
          case isFalse => contradiction
          case isTrue same =>
            cases h
            simp only [Bool.and_eq_true, beq_iff_eq] at same
            refine ⟨c, t, j, action, qubits, first, second, found, ?_, same.2.trans qubits⟩
            have cx := same.1
            rw [Instruction.isCx] at cx
            split at cx
            case h_1 eq => exact eq
            case h_2 => contradiction

theorem of_mem_cancellingPairs (h : (n, next) ∈ x.cancellingPairs taken ops) :
    n ∉ taken ∧ next ∉ taken ∧ ∃ i, (n, i) ∈ ops ∧ x.partner? n i = some next := by
  induction ops generalizing taken
  case nil => simp [cancellingPairs] at h
  case cons y ops hi =>
    have ⟨m, j⟩ := y
    have later : ∀ {taken}, (n, next) ∈ x.cancellingPairs taken ops →
        n ∉ taken ∧ next ∉ taken ∧ ∃ i, (n, i) ∈ (m, j) :: ops ∧ x.partner? n i = some next :=
      fun h =>
        have ⟨hn, hm, i, hi, partner⟩ := hi h
        ⟨hn, hm, i, List.mem_cons_of_mem _ hi, partner⟩
    rw [cancellingPairs] at h
    split at h
    case isTrue => exact later h
    case isFalse free =>
      split at h
      case h_1 => exact later h
      case h_2 k partner =>
        split at h
        case isTrue => exact later h
        case isFalse free' =>
          cases List.mem_cons.mp h
          case inl eq =>
            cases eq
            exact ⟨by simpa using free, by simpa using free', j, by simp, partner⟩
          case inr h =>
            have ⟨hn, hm, rest⟩ := later h
            simp only [List.mem_cons, not_or] at hn hm
            exact ⟨hn.2.2, hm.2.2, rest⟩

-- No node is in two pairs.
theorem nodup_cancellingPairs (other : ∀ y ∈ ops, x.partner? y.1 y.2 ≠ some y.1) :
    ((x.cancellingPairs taken ops).flatMap fun p => [p.1, p.2]).Nodup := by
  induction ops generalizing taken
  case nil => simp [cancellingPairs]
  case cons y ops hi =>
    have ⟨m, j⟩ := y
    have ⟨here, later⟩ := List.forall_mem_cons.mp other
    rw [cancellingPairs]
    split
    case isTrue => exact hi later
    case isFalse =>
      split
      case h_1 => exact hi later
      case h_2 k partner =>
        split
        case isTrue => exact hi later
        case isFalse =>
          have ne : m ≠ k := fun eq => here (eq ▸ partner)
          have fresh : ∀ a ∈ (x.cancellingPairs (m :: k :: taken) ops).flatMap fun p => [p.1, p.2],
              a ≠ m ∧ a ≠ k := by
            intro a ha
            have ⟨p, hp, ha⟩ := List.mem_flatMap.mp ha
            have ⟨hn, hm, _⟩ := of_mem_cancellingPairs hp
            simp only [List.mem_cons, not_or, List.not_mem_nil, or_false] at hn hm ha
            rcases ha with rfl | rfl
            · exact ⟨hn.1, hn.2.1⟩
            · exact ⟨hm.1, hm.2.1⟩
          rw [List.flatMap_cons]
          refine List.nodup_append.mpr ⟨by simpa using ne, hi later, ?_⟩
          rintro a ha b hb rfl
          simp only [List.mem_cons, List.not_mem_nil, or_false] at ha
          have := fresh a hb
          tauto

end Wiring

namespace Dag

variable {d d' : Dag} {seq : List (Nat × Instruction)} {n m : Nat} {i : Instruction} {w : Wire}

-- The nodes of a pair, with the instructions there.
structure Cancelling (seq : List (Nat × Instruction)) (n m : Nat) (i j : Instruction)
    (c t : Nat) : Prop where
  first : (n, i) ∈ seq
  second : (m, j) ∈ seq
  actions : i.action = .gate .cx ∧ j.action = .gate .cx
  qubits : i.qubits = [c, t] ∧ j.qubits = [c, t]
  distinct : c ≠ t
  control : (n, m) ∈ hops (onWire (.qubit c) seq)
  target : (n, m) ∈ hops (onWire (.qubit t) seq)

theorem Serial.cancelling (h : d.Serial seq) (hn : (n, i) ∈ seq)
    (partner : d.wiring.partner? n i = some m) : ∃ j c t, Cancelling seq n m i j c t := by
  have ⟨c, t, j, action, qubits, control, target, found, action', qubits'⟩ :=
    Wiring.of_partner? partner
  rw [wiring, Graph.wiring_successor?] at control target
  rw [wiring, Graph.wiring_instruction?] at found
  have op : (d.instruction? m).isSome := by rw [instruction?, found]; rfl
  have distinct : c ≠ t := by simpa [qubits] using (h.fits _ hn).nodup
  exact ⟨j, c, t, hn, (h.mem_iff m j).mpr found, ⟨action, action'⟩, ⟨qubits, qubits'⟩, distinct,
    (h.successor?_eq_some_iff hn (by simp [Instruction.wires, qubits]) op).mp control,
    (h.successor?_eq_some_iff hn (by simp [Instruction.wires, qubits]) op).mp target⟩

-- A pair without classical bits is a segment that can be dropped.
theorem Cancelling.contracts {j : Instruction} {c t : Nat} (h : Cancelling seq n m i j c t)
    (P : List Instruction → List Instruction → Prop) (plain : i.Plain ∧ j.Plain) :
    Contracts P seq [.remove n, .remove m] := by
  have first : i = .cx c t := plain.1.eq_gate h.actions.1 h.qubits.1
  have second : j = .cx c t := plain.2.eq_gate h.actions.2 h.qubits.2
  subst first second
  have tight : ∀ {w : Wire}, (n, m) ∈ hops (onWire w seq) → [n, m] <:+: onWire w seq := by
    intro w hop
    have ⟨u, v, eq⟩ := mem_hops_iff.mp hop
    exact ⟨u, v, by simp [eq]⟩
  refine .intro [.qubit c, .qubit t] (.qubit c) (n, .cx c t) [(m, .cx c t)] (by simp) ⟨?_, ?_, ?_⟩
    rfl rfl (by simp [Revision.written]) (by simp [Revision.written]) (by simp [Revision.written]) fun l r => ?_
  case refine_1 => simp [h.first, h.second]
  case refine_2 => simp [Instruction.wires, Instruction.cx, Instruction.gate, eq_comm]
  case refine_3 => simpa using ⟨tight h.control, tight h.target⟩
  case refine_4 => simpa [Revision.written] using .cancel l r h.distinct

theorem removals_eq (pairs : List (Nat × Nat)) :
    removals pairs = (pairs.map fun p => [.remove p.1, .remove p.2]).flatten := by
  rw [removals, List.flatMap]

theorem map_node_removals (pairs : List (Nat × Nat)) :
    (removals pairs).map Revision.node = pairs.flatMap fun p => [p.1, p.2] := by
  rw [removals, List.map_flatMap]
  rfl

theorem written_of_mem_removals {pairs : List (Nat × Nat)} :
    ∀ rev ∈ removals pairs, rev.written = [] := by
  intro rev hr
  simp only [removals, List.mem_flatMap, List.mem_cons, List.not_mem_nil, or_false] at hr
  obtain ⟨p, _, hr⟩ := hr
  rcases hr with rfl | rfl <;> rfl

-- A round removes its pairs.
theorem Serial.cancelRound (h : d.Serial seq) :
    ∃ d' seq',
      Dag.reviseAll (removals (d.wiring.cancellingPairs [] d.topologicalOps)) d = (.ok (), d') ∧
      d.Alike d' ∧ d'.Serial seq' ∧ (∀ i ∈ seq'.map Prod.snd, i ∈ seq.map Prod.snd) ∧
      ∀ P, (∀ i ∈ seq.map Prod.snd, i.Plain) →
        Simplifies P (seq.map Prod.snd) (seq'.map Prod.snd) := by
  have ops := h.perm h.topologicalOps
  have pair : ∀ p ∈ d.wiring.cancellingPairs [] d.topologicalOps,
      ∃ i j c t, Cancelling seq p.1 p.2 i j c t := by
    intro p hp
    obtain ⟨_, _, i, hi, partner⟩ := Wiring.of_mem_cancellingPairs hp
    exact ⟨i, h.cancelling (ops.mem_iff.mpr hi) partner⟩
  have other : ∀ x ∈ d.topologicalOps, d.wiring.partner? x.1 x.2 ≠ some x.1 := by
    intro x hx partner
    obtain ⟨_, _, _, pair⟩ := h.cancelling (ops.mem_iff.mpr hx) partner
    exact hops_ne (h.nodup.sublist onWire_sublist) pair.control rfl
  have nodup : ((removals (d.wiring.cancellingPairs [] d.topologicalOps)).map Revision.node).Nodup :=
    map_node_removals _ ▸ Wiring.nodup_cancellingPairs other
  obtain ⟨d', seq', eq, alike, serial, written⟩ := h.reviseAll nodup fun rev hr => by
    have empty := written_of_mem_removals rev hr
    have node := map_node_removals _ ▸ List.mem_map_of_mem (f := Revision.node) hr
    simp only [List.mem_flatMap, List.mem_cons, List.not_mem_nil, or_false] at node
    obtain ⟨p, hp, node⟩ := node
    obtain ⟨i, j, _, _, pair⟩ := pair p hp
    cases node
    case inl node => exact ⟨i, node ▸ pair.first, by simp [Revision.Fits, empty]⟩
    case inr node => exact ⟨j, node ▸ pair.second, by simp [Revision.Fits, empty]⟩
  refine ⟨d', seq', eq, alike, serial, fun i hi => ?_, fun P plain => ?_⟩
  case refine_1 =>
    rw [written, flatMap_revised_of_removed written_of_mem_removals] at hi
    exact (List.filter_sublist.map _).subset hi
  case refine_2 =>
    rw [written]
    rw [removals_eq] at nodup ⊢
    refine Contracts.simplifies_all h.nodup nodup fun revs hr => ?_
    obtain ⟨p, hp, eq⟩ := List.mem_map.mp hr
    obtain ⟨i, j, _, _, pair⟩ := pair p hp
    exact eq ▸ pair.contracts P
      ⟨plain i (List.mem_map_of_mem pair.first), plain j (List.mem_map_of_mem pair.second)⟩

theorem Serial.cancelRounds (h : d.Serial seq) (fuel : Nat) :
    ∃ d' seq', Dag.cancelRounds fuel d = (.ok (), d') ∧ d.Alike d' ∧ d'.Serial seq' ∧
      (∀ i ∈ seq'.map Prod.snd, i ∈ seq.map Prod.snd) ∧
      ∀ P, (∀ i ∈ seq.map Prod.snd, i.Plain) →
        Simplifies P (seq.map Prod.snd) (seq'.map Prod.snd) := by
  induction fuel generalizing d seq
  case zero => exact ⟨d, seq, rfl, .refl d, h, fun _ hi => hi, fun P _ => .refl P _⟩
  case succ fuel hi =>
    rw [Dag.cancelRounds]
    split
    case h_1 => exact ⟨d, seq, rfl, .refl d, h, fun _ hi => hi, fun P _ => .refl P _⟩
    case h_2 =>
      have ⟨d₁, seq₁, eq, alike, serial, subset, simplifies⟩ := h.cancelRound
      have ⟨d', seq', eq', alike', serial', subset', simplifies'⟩ := hi serial
      refine ⟨d', seq', ?_, alike.trans alike', serial', fun i hi => subset i (subset' i hi), ?_⟩
      case refine_1 => simp only [eq, eq']
      case refine_2 =>
        intro P plain
        exact (simplifies P plain).trans
          (simplifies' P fun i hi => plain i (subset i hi))

end Dag

end CircuitRouting
