import CircuitRouting.Proofs.Dag.Reworked
import CircuitRouting.Proofs.Pass.Fusion

/-!
# Fusion block by block

Fusion writes on each wire what the product of each block asks for, and leaves the rest in its place.
-/

namespace CircuitRouting

namespace Dag

variable {basis : Basis} {d d' : Dag} {n q : Nat}
  {seq part current rest : List (Nat × Instruction)}

-- A run gives what its block asks for once it is closed; an empty one asks for nothing.
theorem flatMap_closed {g : Nat × Instruction → List Instruction}
    (gates : ∀ x ∈ current, x.2.isOneQubitGate)
    (run : current ≠ [] → current.flatMap g = Instruction.fuseBlock basis q (current.map Prod.snd)) :
    current.flatMap g = Instruction.fuseBlocks basis q (current.map Prod.snd) := by
  by_cases ne : current = []
  case pos => simp [ne, Instruction.fuseBlocks]
  case neg =>
    rw [Instruction.fuseBlocks_of_gates (List.forall_mem_map.mpr gates) (by simpa using ne), run ne]

-- Along the runs of a wire: where each run gives what its block asks for and the rest stays, the whole
-- wire is fused block by block.
theorem flatMap_runsFrom {g : Nat × Instruction → List Instruction}
    (ops : ∀ x ∈ current ++ rest, d.instruction? x.1 = some x.2)
    (proper : ∀ x ∈ current ++ rest, x.2.Proper)
    (gates : ∀ x ∈ current, x.2.isOneQubitGate)
    (runs : ∀ part : List (Nat × Instruction), part ≠ [] →
      (∀ x ∈ part, x ∈ current ++ rest ∧ x.2.isOneQubitGate) →
      ⟨q, part.map Prod.fst, Instruction.product (part.map Prod.snd)⟩ ∈ d.runsFrom q
        (current.map Prod.fst) (Instruction.product (current.map Prod.snd)) (rest.map Prod.fst) →
      part.flatMap g = Instruction.fuseBlock basis q (part.map Prod.snd))
    (stays : ∀ x ∈ rest, x.2.isOneQubitGate = false → g x = [x.2]) :
    (current ++ rest).flatMap g = Instruction.fuseBlocks basis q ((current ++ rest).map Prod.snd) := by
  induction rest generalizing current
  case nil =>
    rw [List.append_nil] at runs ⊢
    exact flatMap_closed gates fun ne => runs current ne (fun x hx => ⟨hx, gates x hx⟩)
      (List.mem_singleton_self _)
  case cons x rest hi =>
    obtain ⟨here, later⟩ := List.forall_mem_cons.mp stays
    have matrix := unitary?_eq (ops x (by simp))
    rw [List.map_cons, runsFrom, matrix] at runs
    cases one : x.2.isOneQubitGate
    case true =>
      obtain ⟨v, found⟩ := Option.isSome_iff_exists.mp (Instruction.isSome_matrix? (proper x (by simp)) one)
      have ops' : ∀ y ∈ current ++ [x] ++ rest, d.instruction? y.1 = some y.2 := by simpa using ops
      have next := hi ops' (by simpa using proper) (List.forall_mem_append.mpr ⟨gates, by simpa using one⟩)
        (by simpa [one, found, Instruction.product_concat found] using runs) later
      simpa using next
    case false =>
      simp only [one, Bool.false_eq_true, if_false] at runs
      have before := flatMap_closed gates fun ne =>
        runs current ne (fun x hx => ⟨by simp [hx], gates x hx⟩) (by simp)
      have inside : ∀ y ∈ rest, y ∈ current ++ x :: rest := fun y hy =>
        List.mem_append_right _ (.tail _ hy)
      have ops' : ∀ y ∈ [] ++ rest, d.instruction? y.1 = some y.2 := fun y hy => ops y (inside y hy)
      have after := hi ops' (fun y hy => proper y (inside y hy)) (by simp)
        (fun part ne mem run => runs part ne (fun y hy => ⟨inside y (mem y hy).1, (mem y hy).2⟩)
          (.tail _ run)) later
      rw [List.map_append, List.map_cons, Instruction.fuseBlocks_of_other one, List.flatMap_append,
        List.flatMap_cons, before, here one]
      exact congrArg _ (congrArg _ after)

-- Two runs of a wire share no node.
theorem Reads.eq_of_mem_runsFrom {r r' : GateRun} (h : d.Reads seq)
    (hr : r ∈ d.runsFrom q [] .identity (onWire (.qubit q) seq))
    (hr' : r' ∈ d.runsFrom q [] .identity (onWire (.qubit q) seq)) (hn : n ∈ r.nodes)
    (hn' : n ∈ r'.nodes) : r = r' := by
  have nodup : ((d.runsFrom q [] .identity (onWire (.qubit q) seq)).flatMap GateRun.nodes).Nodup :=
    (h.nodup.sublist onWire_sublist).sublist (runsFrom_sublist [])
  have : Std.Symm (Function.onFun List.Disjoint GateRun.nodes) := ⟨fun _ _ apart _ ha hb => apart hb ha⟩
  by_contra ne
  exact (List.nodup_flatMap.mp nodup).2.forall hr hr' ne hn hn'

-- A run that is not fused has none of its nodes revised.
theorem Reads.mem_fusableRuns_of_node {r : GateRun} (h : d.Reads seq)
    (hr : r ∈ d.runsFrom q [] .identity (onWire (.qubit q) seq)) (hn : n ∈ r.nodes)
    (revised : n ∈ (d.fusableRuns.flatMap (fusion basis)).map Revision.node) : r.isFusable := by
  rw [List.map_flatMap, List.flatMap_congr fun r _ => map_node_fusion basis r] at revised
  obtain ⟨r', mem, hn'⟩ := List.mem_flatMap.mp revised
  obtain ⟨fusable, _, _, hr', gates⟩ := h.of_mem_fusableRuns mem
  obtain ⟨i, _, hi, _, qubits⟩ := gates n hn'
  obtain ⟨_, part, _⟩ := of_mem_runsFrom hr (by simp)
  obtain ⟨j, hj, hq⟩ := mem_onWire.mp (part.subset hn)
  cases eq_of_fst_eq h.nodup hi hj rfl
  obtain rfl : q = r'.qubit := by simpa [Instruction.wires, qubits] using hq
  exact h.eq_of_mem_runsFrom hr hr' hn hn' ▸ fusable

-- The first node of a run gives the fused gate, and the others give nothing.
theorem Reads.flatMap_revised_fusable {r : GateRun} (h : d.Reads seq) (hr : r ∈ d.fusableRuns)
    (nodes : part.map Prod.fst = r.nodes) :
    part.flatMap (revised (d.fusableRuns.flatMap (fusion basis))) =
      ((Gate.synthesize basis r.product).map fun g => Instruction.gate g [r.qubit]).toList := by
  have written : ∀ x rev, rev ∈ fusion basis r → rev.node = x.1 →
      revised (d.fusableRuns.flatMap (fusion basis)) x = rev.written := fun x rev mem =>
    revised_of_mem (h.nodup_fusions basis) (List.mem_flatMap.mpr ⟨r, hr, mem⟩)
  cases part
  case nil => simpa [GateRun.isFusable, ← nodes] using (h.of_mem_fusableRuns hr).1
  case cons x part =>
    rw [fusion, ← nodes, List.map_cons] at written
    have others : ∀ y ∈ part, revised (d.fusableRuns.flatMap (fusion basis)) y = [] := fun y hy =>
      written y (.remove y.1) (by simpa using ⟨y.2, hy⟩) rfl
    rw [List.flatMap_cons, List.flatMap_eq_nil_iff.mpr others, List.append_nil,
      written x _ List.mem_cons_self rfl]
    rfl

theorem Reads.flatMap_revised_run (h : d.Reads seq) (ne : part ≠ [])
    (gates : ∀ x ∈ part, x.2.isOneQubitGate)
    (run : ⟨q, part.map Prod.fst, Instruction.product (part.map Prod.snd)⟩ ∈
      d.runsFrom q [] .identity (onWire (.qubit q) seq)) :
    part.flatMap (revised (d.fusableRuns.flatMap (fusion basis))) =
      Instruction.fuseBlock basis q (part.map Prod.snd) := by
  cases fusable : GateRun.isFusable
    ⟨q, part.map Prod.fst, Instruction.product (part.map Prod.snd)⟩
  case true =>
    have wire : d.hasWire (.qubit q) := by
      by_contra no
      rw [← h.wireOps, wireOps_of_not_hasWire no] at run
      exact ne (by simpa using congrArg GateRun.nodes (List.mem_singleton.mp run))
    rw [h.flatMap_revised_fusable (h.mem_fusableRuns.mpr ⟨fusable, q, wire, run⟩) rfl,
      Instruction.fuseBlock_of_isFusable basis _ fusable (by simp) (List.forall_mem_map.mpr gates)]
  case false =>
    -- A gate on its own that is not the identity.
    obtain ⟨x, rfl⟩ : ∃ x, part = [x] := by
      cases part
      case nil => contradiction
      case cons x rest =>
        cases rest
        case nil => exact ⟨x, rfl⟩
        case cons => simp [GateRun.isFusable] at fusable
    have identity : (Instruction.product [x.2]).isIdentity = false := fusable
    have stays : x.1 ∉ (d.fusableRuns.flatMap (fusion basis)).map Revision.node := fun mem => by
      have := h.mem_fusableRuns_of_node run (by simp) mem
      simp [GateRun.isFusable, identity] at this
    have one : x.2.isOneQubitGate := gates x (by simp)
    simp [revised_of_notMem stays, Instruction.fuseBlock, one, identity]

-- Each wire is fused block by block; no gates are next to each other any more, and the rest stays.
structure Fuses (d : Dag) (basis : Basis) (d' : Dag) : Prop where
  qubit : ∀ q, d'.wireInstructions (.qubit q) =
    Instruction.fuseBlocks basis q (d.wireInstructions (.qubit q))
  clbit : ∀ c, d'.wireInstructions (.clbit c) = d.wireInstructions (.clbit c)
  keeps : d.Keeps (fun i => !i.isOneQubitGate) d'
  apart : ∀ q, (d'.wireInstructions (.qubit q)).IsChain fun i j => Instruction.fuses i j = false
  numOps : d'.numOps ≤ d.numOps

theorem Reads.flatMap_revised_wire (h : d.Reads seq) (proper : ∀ x ∈ seq, x.2.Proper) (q : Nat) :
    ((d.opsAt (d.wireOps (.qubit q))).flatMap fun x =>
        (revised (d.fusableRuns.flatMap (fusion basis)) x).filter (q ∈ ·.qubits)) =
      Instruction.fuseBlocks basis q (d.wireInstructions (.qubit q)) := by
  have on : ∀ x ∈ seq.filter (q ∈ ·.2.qubits), x ∈ seq ∧ q ∈ x.2.qubits := fun x hx => by
    simpa using List.mem_filter.mp hx
  rw [wireInstructions_eq, h.opsAt_wireOps]
  have ops : ∀ x ∈ [] ++ seq.filter (q ∈ ·.2.qubits), d.instruction? x.1 = some x.2 := fun x hx =>
    (h.mem_iff _ _).mp (on x hx).1
  refine flatMap_runsFrom ops (fun x hx => proper x (on x hx).1) (by simp)
    (fun part ne mem run => ?_) fun x hx other => ?_
  case refine_1 =>
    rw [← onWire_qubit] at run
    rw [← List.filter_flatMap, h.flatMap_revised_run ne (fun x hx => (mem x hx).2) run]
    refine List.filter_eq_self.mpr fun j hj => ?_
    refine decide_eq_true (Instruction.mem_qubits_of_mem_fuseBlock (List.forall_mem_map.mpr ?_) hj)
    exact fun x hx => (on x (mem x hx).1).2
  case refine_2 =>
    obtain ⟨mem, hq⟩ := on x hx
    have stays : x.1 ∉ (d.fusableRuns.flatMap (fusion basis)).map Revision.node := fun hn => by
      obtain ⟨rev, hr, node⟩ := List.mem_map.mp hn
      obtain ⟨i, g, p, hi, action, qubits, _⟩ := h.of_mem_fusions hr
      cases eq_of_fst_eq h.nodup hi mem node
      simp [Instruction.isOneQubitGate, Instruction.isGate, Instruction.gate?, action, qubits] at other
    simp [revised_of_notMem stays, hq]

theorem length_written_fusion {rev : Revision} {r : GateRun} (hr : rev ∈ fusion basis r) :
    rev.written.length ≤ 1 := by
  rcases written_of_mem_fusion hr with eq | eq
  · rw [eq, List.length_map]
    cases Gate.synthesize basis r.product <;> simp
  · simp [eq]

theorem Tame.fuseAll (h : d.Tame) (basis : Basis) :
    ∃ d', d.fuseAll basis = (.ok (), d') ∧ d.Fuses basis d' := by
  obtain ⟨seq, woven, _⟩ := h.exists_woven
  have reads := woven.reads
  have found : ∀ {n i}, (n, i) ∈ seq → d.instruction? n = some i := fun mem => (reads.mem_iff _ _).mp mem
  obtain ⟨d', eq, revises⟩ := h.reviseAll (reads.nodup_fusions basis) fun rev hr =>
    have ⟨i, g, q, hi, action, _, fits⟩ := reads.of_mem_fusions hr
    ⟨i, found hi, (h.plain _ i (found hi)).clbits_eq_nil action, fits⟩
  have qubit : ∀ q, d'.wireInstructions (.qubit q) =
      Instruction.fuseBlocks basis q (d.wireInstructions (.qubit q)) := fun q =>
    (revises.qubit q).trans <| reads.flatMap_revised_wire
      (fun x hx => (h.reachable.fits (found hx)).proper) q
  refine ⟨d', eq, qubit, revises.clbit, revises.keeps _ fun n i op other mem => ?_, fun q => ?_,
    revises.numOps fun n i op => ?_⟩
  case refine_1 =>
    obtain ⟨rev, hr, node⟩ := List.mem_map.mp mem
    obtain ⟨j, g, q, hj, action, qubits, _⟩ := reads.of_mem_fusions hr
    have same := found hj
    rw [node, op, Option.some.injEq] at same
    simp [Instruction.isOneQubitGate, Instruction.isGate, Instruction.gate?, same, action, qubits] at other
  case refine_2 => exact qubit q ▸ Instruction.isChain_fuseBlocks basis q _
  case refine_3 =>
    rw [revised]
    split
    case h_1 rev found =>
      obtain ⟨r, _, mem⟩ := List.mem_flatMap.mp (List.mem_of_find?_eq_some found)
      exact length_written_fusion mem
    case h_2 => exact Nat.le_refl 1

end Dag

namespace Pass

-- The pass succeeds and fuses each wire block by block.
theorem run_fusion_blocks (w : Workspace) (tame : w.dag.Tame) :
    ∃ d, fusion.run w = (.ok (), { w with dag := d }) ∧
      w.dag.Fuses w.properties.targetBasis d := by
  have ⟨d, eq, fuses⟩ := tame.fuseAll w.properties.targetBasis
  exact ⟨d, by simp [fusion, Workspace.edit, eq, Except.mapError], fuses⟩

-- Blocks on two wires that end at a controlled NOT, at a measurement and at a barrier.
def scattered : Workspace where
  dag := Dag.edited [.addQubit 0, .addQubit 1, .addClbit 0, .apply (.gate .h [0]), .apply (.gate .t [1]),
    .apply (.gate .h [0]), .apply (.cx 0 1), .apply (.gate .s [1]), .apply (.gate .sdg [1]),
    .apply (.measure 1 0), .apply (.gate .x [0]), .apply (.barrier [0, 1]), .apply (.gate .id [0])]

theorem scattered_tame : scattered.dag.Tame := by
  dsimp only [scattered]
  exact Dag.tame_edited (by decide) (by decide +kernel) (by decide +kernel)

theorem run_fusion_blocks_scattered :
    scattered.dag.Tame ∧ ∃ d, fusion.run scattered = (.ok (), { scattered with dag := d }) ∧
      scattered.dag.Fuses scattered.properties.targetBasis d :=
  ⟨scattered_tame, run_fusion_blocks scattered scattered_tame⟩

end Pass

end CircuitRouting
