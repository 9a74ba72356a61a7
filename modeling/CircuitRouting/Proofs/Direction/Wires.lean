import CircuitRouting.Proofs.Dag.Reworked
import CircuitRouting.Proofs.Pass.Direction

/-!
# Orientation seen from the wires

Orientation succeeds exactly if the device runs every controlled NOT one way or the other, and otherwise
names the first one that it runs neither way. When it succeeds, a wire sees a controlled NOT that had to
be turned as the turned one between two Hadamard gates, and everything else as before.
-/

namespace CircuitRouting

namespace Instruction

variable {m : CouplingMap} {turn : Gate} {q : Nat} {i j : Instruction}

-- The device runs the controlled NOT only the other way around, or not at all.
def isAgainst (m : CouplingMap) (i : Instruction) : Bool :=
  i.isCx && !m.hasEdge i.control i.target

-- What a qubit of an instruction sees after orientation.
def turnedOn (m : CouplingMap) (turn : Gate) (q : Nat) (i : Instruction) : List Instruction :=
  if i.isAgainst m then [gate turn [q], cx i.target i.control, gate turn [q]] else [i]

theorem filter_turned (proper : i.Proper) (hq : q ∈ i.qubits) :
    (i.turned m turn).filter (q ∈ ·.qubits) = i.turnedOn m turn q := by
  rw [turned, turnedOn, isAgainst]
  by_cases against : i.isCx ∧ m.hasEdge i.control i.target = false
  case neg =>
    rw [if_neg against, if_neg (by simpa using against)]
    simp [hq]
  case pos =>
    obtain ⟨_, qubits⟩ := qubits_of_isCx proper against.1
    have nodup := proper.nodup
    rw [qubits] at nodup hq
    have ne : i.control ≠ i.target := by simpa using nodup
    rw [if_pos against, if_pos (by simpa using against)]
    simp only [List.mem_cons, List.not_mem_nil, or_false] at hq
    cases hq
    case inl eq => simp [reversedCx, gate, cx, eq, ne]
    case inr eq => simp [reversedCx, gate, cx, eq, ne.symm]

-- What orientation writes runs in the direction of an edge.
theorem hasEdge_of_mem_turned (one : turn.arity = 1) (hj : j ∈ i.turned m turn) (cx : j.isCx)
    (coupled : i.isCx → m.coupled i.control i.target) : m.hasEdge j.control j.target := by
  rw [turned] at hj
  split at hj
  case isTrue against =>
    have other : ∀ qs, (Instruction.gate turn qs).isCx = false := by
      refine fun qs => Bool.eq_false_iff.mpr fun cx => ?_
      rw [Action.gate.inj (isCx_iff.mp cx)] at one
      contradiction
    rcases of_mem_reversedCx hj with rfl | rfl | rfl
    · simp [other] at cx
    · simp [other] at cx
    · have edge := coupled against.1
      rw [CouplingMap.coupled, against.2, Bool.false_or] at edge
      exact edge
  case isFalse along =>
    cases List.mem_singleton.mp hj
    simpa [cx] using along

end Instruction

namespace Dag

variable {m : CouplingMap} {turn : Gate} {d d' : Dag} {n : Nat} {i : Instruction}
  {pre post : List (Nat × Nat × Nat)}

-- The lowest number of a controlled NOT that the device runs neither way.
structure FirstStray (d : Dag) (m : CouplingMap) (n : Nat) (i : Instruction) : Prop where
  found : d.instruction? n = some i
  cx : i.isCx
  stray : m.coupled i.control i.target = false
  first : ∀ k j, k < n → d.instruction? k = some j → j.isCx → m.coupled j.control j.target

-- Either all controlled NOTs are on joined qubits, or there is a first one that is not.
theorem coupled_or_firstStray (m : CouplingMap) (d : Dag) :
    (∀ x ∈ d.cxNodes, m.coupled x.2.1 x.2.2) ∨
      ∃ pre n i post, d.cxNodes = pre ++ (n, i.control, i.target) :: post ∧
        (∀ x ∈ pre, m.coupled x.2.1 x.2.2) ∧ d.FirstStray m n i := by
  cases found : d.cxNodes.find? fun x => !m.coupled x.2.1 x.2.2
  case none =>
    refine .inl fun x hx => ?_
    simpa using List.find?_eq_none.mp found x hx
  case some x =>
    obtain ⟨stray, pre, post, split, before⟩ := List.find?_eq_some_iff_append.mp found
    obtain ⟨n, c, t⟩ := x
    obtain ⟨i, op, cx, rfl, rfl⟩ := mem_cxNodes.mp (List.mem_of_find?_eq_some found)
    simp only [Bool.not_not] at before
    refine .inr ⟨pre, n, i, post, split, before, op, cx, by simpa using stray, fun k j lt op' cx' => ?_⟩
    -- The nodes are listed in the order of their numbers.
    have sorted := d.graph.nodes_sorted.sublist cxNodes_sublist
    have mem := mem_cxNodes.mpr ⟨j, op', cx', rfl, rfl⟩
    rw [split] at mem sorted
    simp only [List.map_append, List.map_cons, List.pairwise_append, List.pairwise_cons] at sorted
    rcases List.mem_append.mp mem with mem | mem
    · exact before _ mem
    · cases List.mem_cons.mp mem
      case inl eq => simp [(Prod.mk.inj eq).1] at lt
      case inr mem => exact absurd (sorted.2.1.1 k (List.mem_map_of_mem mem)) (by omega)

-- The turned controlled NOTs run along the edges, and on each wire nothing else has changed.
structure Turns (d : Dag) (m : CouplingMap) (turn : Gate) (d' : Dag) : Prop where
  edges : ∀ n i, d'.instruction? n = some i → i.isCx → m.hasEdge i.control i.target
  qubit : ∀ q, d'.wireInstructions (.qubit q) =
    (d.wireInstructions (.qubit q)).flatMap (Instruction.turnedOn m turn q)
  clbit : ∀ c, d'.wireInstructions (.clbit c) = d.wireInstructions (.clbit c)
  keeps : d.Keeps (fun i => !i.isAgainst m) d'

-- What is turned has no classical bits, so that it can be revised.
theorem Tame.reviseTurnings (h : d.Tame) (one : turn.arity = 1) (sub : pre.Sublist d.cxNodes) :
    ∃ d', Dag.reviseAll (pre.filterMap (turning? m turn)) d = (.ok (), d') ∧
      d.Revises (pre.filterMap (turning? m turn)) d' := by
  refine h.reviseAll (nodup_turnings sub) fun rev hr => ?_
  have ⟨i, op, cx, _, fits⟩ := of_mem_turnings one (fun _ _ => h.reachable.fits) sub.subset hr
  exact ⟨i, op, (h.plain _ i op).clbits_eq_nil (Instruction.isCx_iff.mp cx), fits⟩

theorem Tame.turns (h : d.Tame) (one : turn.arity = 1)
    (coupled : ∀ x ∈ d.cxNodes, m.coupled x.2.1 x.2.2)
    (revises : d.Revises (d.cxNodes.filterMap (turning? m turn)) d') : d.Turns m turn d' where
  edges n j hj cx := by
    have ⟨k, i, op, mem⟩ := revises.ops n j hj
    rw [revised_turnings op] at mem
    exact Instruction.hasEdge_of_mem_turned one mem cx fun cx' =>
      coupled _ (mem_cxNodes.mpr ⟨i, op, cx', rfl, rfl⟩)
  qubit q := by
    obtain ⟨seq, woven, _⟩ := h.exists_woven
    rw [revises.qubit, Dag.wireInstructions_eq, List.flatMap_map, woven.reads.opsAt_wireOps]
    refine List.flatMap_congr fun x hx => ?_
    have ⟨mem, hq⟩ := List.mem_filter.mp hx
    have op := (woven.mem_iff x.1 x.2).mp mem
    rw [revised_turnings op, Instruction.filter_turned (h.reachable.fits op).proper (by simpa using hq)]
  clbit := revises.clbit
  keeps := by
    refine revises.keeps _ fun n i op along mem => ?_
    obtain ⟨rev, hr, rfl⟩ := List.mem_map.mp mem
    have ⟨j, op', cx, edge, _⟩ := of_mem_turnings one (fun _ _ => h.reachable.fits) (.refl _) hr
    rw [op, Option.some.injEq] at op'
    subst op'
    simp [Instruction.isAgainst, cx, edge] at along

theorem Tame.orient_eq_ok (h : d.Tame) (one : turn.arity = 1)
    (coupled : ∀ x ∈ d.cxNodes, m.coupled x.2.1 x.2.2) :
    ∃ d', orient m turn d.cxNodes d = (.ok (), d') ∧ d.Turns m turn d' := by
  have ⟨d', eq, revises⟩ := h.reviseTurnings (m := m) one (.refl _)
  have oriented := orient_append coupled eq []
  rw [List.append_nil] at oriented
  exact ⟨d', oriented, h.turns one coupled revises⟩

theorem Tame.orient_eq_error (h : d.Tame) (one : turn.arity = 1)
    (split : d.cxNodes = pre ++ (n, i.control, i.target) :: post)
    (coupled : ∀ x ∈ pre, m.coupled x.2.1 x.2.2) (stray : m.coupled i.control i.target = false) :
    (orient m turn d.cxNodes d).1 = .error (.unsupportedConnection i.control i.target) := by
  have ⟨d', eq, _⟩ := h.reviseTurnings (m := m) one (split ▸ List.sublist_append_left _ _)
  rw [CouplingMap.coupled, Bool.or_eq_false_iff] at stray
  rw [split, orient_append coupled eq, orient]
  simp [stray.1, stray.2]

end Dag

namespace Pass

-- Exactly if the device runs every controlled NOT one way or the other, the pass succeeds and turns
-- those that it runs the other way only; otherwise it names the first that it runs neither way.
theorem run_direction_turns (w : Workspace) (m : CouplingMap)
    (map : w.properties.couplingMap = some m) (tame : w.dag.Tame) :
    ((direction.run w).1 = .ok () ↔
        ∀ n i, w.dag.instruction? n = some i → i.isCx → m.coupled i.control i.target) ∧
      (∀ e, (direction.run w).1 = .error e →
        ∃ n i, w.dag.FirstStray m n i ∧ e = .unsupportedConnection i.control i.target) ∧
      ((direction.run w).1 = .ok () →
        ∃ d, direction.run w = (.ok (), { w with dag := d }) ∧
          w.dag.Turns m (.hadamard w.properties.targetBasis) d) := by
  have one := Gate.arity_hadamard w.properties.targetBasis
  simp only [direction, map]
  rcases w.dag.coupled_or_firstStray m with coupled | ⟨pre, n, i, post, split, coupled, first⟩
  case inl =>
    obtain ⟨d, eq, turns⟩ := tame.orient_eq_ok one coupled
    rw [eq]
    refine ⟨⟨fun _ n i op cx => ?_, fun _ => rfl⟩, by simp, fun _ => ⟨d, rfl, turns⟩⟩
    exact coupled _ (Dag.mem_cxNodes.mpr ⟨i, op, cx, rfl, rfl⟩)
  case inr =>
    have eq := tame.orient_eq_error one split coupled first.stray
    simp only [eq, reduceCtorEq, false_iff, false_implies, and_true, Except.error.injEq, not_forall]
    refine ⟨⟨n, i, first.found, first.cx, by simp [first.stray]⟩, fun e he => ⟨n, i, first, he.symm⟩⟩

-- Two controlled NOTs against the edges that share a qubit, and one along an edge after them.
def braided : Workspace where
  dag := Dag.edited [.addQubit 0, .addQubit 1, .addQubit 2, .addClbit 0, .apply (.cx 1 0),
    .apply (.cx 2 1), .apply (.cx 0 1), .apply (.measure 1 0)]
  properties := { couplingMap := some (.linear 3) }

theorem braided_tame : braided.dag.Tame :=
  Dag.tame_edited (by decide) (by decide +kernel) (by decide +kernel)

theorem run_direction_turns_braided :
    braided.dag.Tame ∧
      ((direction.run braided).1 = .ok () ↔ ∀ n i, braided.dag.instruction? n = some i → i.isCx →
        (CouplingMap.linear 3).coupled i.control i.target) ∧
      (∀ e, (direction.run braided).1 = .error e → ∃ n i,
        braided.dag.FirstStray (.linear 3) n i ∧ e = .unsupportedConnection i.control i.target) ∧
      ((direction.run braided).1 = .ok () → ∃ d,
        direction.run braided = (.ok (), { braided with dag := d }) ∧
          braided.dag.Turns (.linear 3) (.hadamard braided.properties.targetBasis) d) :=
  ⟨braided_tame, run_direction_turns braided (.linear 3) rfl braided_tame⟩

end Pass

end CircuitRouting
