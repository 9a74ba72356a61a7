import CircuitRouting.Proofs.Compiler.Stages
import CircuitRouting.Proofs.Pass.Placement
import CircuitRouting.Proofs.Tokens

/-!
# Compilation preserves meaning

Under the laws of an interpretation, what routing emits means the routed program on the first layout,
followed by all swaps. Together with the other stages this gives the meaning of a compiled circuit:
that of the circuit, relabelled by the first layout, followed by the reported swaps.
-/

namespace CircuitRouting

open Instruction

variable {M : Type*} [Monoid M] {basis : Basis} {I : Instruction → M} {lay last : Layout}
  {i j : Instruction} {is js : List Instruction} {swaps : List (Nat × Nat)} {d : Dag}

-- Before a swap an instruction was on the other qubits.
theorem Instruction.Relabelled.of_swap {a b : Nat} (h : i.Relabelled (lay.swap a b) j) :
    i.Relabelled lay (j.relabel (Layout.exchange a b)) ∧
      (j.relabel (Layout.exchange a b)).relabel (Layout.exchange a b) = j := by
  refine ⟨⟨h.action, ?_, h.clbits⟩, ?_⟩
  case refine_1 =>
    rw [relabel, List.forall₂_map_right_iff]
    refine h.qubits.imp fun q p eq => ?_
    rw [Layout.physical?_swap, Option.map_eq_some_iff] at eq
    obtain ⟨p', eq, same⟩ := eq
    simp [← same, eq]
  case refine_2 => simp [relabel, Function.comp_def]

namespace Lawful

variable (laws : Lawful basis I)
include laws

theorem past_swaps (distinct : ∀ e ∈ swaps, e.1 ≠ e.2) (h : i.Relabelled (lay.swapAll swaps) j) :
    ∃ k, i.Relabelled lay k ∧
      meaning I (swapsAsCx swaps) * I j = I k * meaning I (swapsAsCx swaps) := by
  induction swaps generalizing lay
  case nil => exact ⟨j, h, by simp [swapsAsCx]⟩
  case cons e swaps hi =>
    obtain ⟨ne, later⟩ := List.forall_mem_cons.mp distinct
    obtain ⟨k, rel, eq⟩ := hi later h
    obtain ⟨rel', twice⟩ := rel.of_swap
    refine ⟨_, rel', ?_⟩
    have first := laws.exchange (k.relabel (Layout.exchange e.1 e.2)) e.1 e.2 ne
    rw [twice] at first
    have cut : swapsAsCx (e :: swaps) = swapAsCx e.1 e.2 ++ swapsAsCx swaps := rfl
    rw [cut, meaning_append, mul_assoc, eq, ← mul_assoc, first, mul_assoc]

theorem past_swaps_all (distinct : ∀ e ∈ swaps, e.1 ≠ e.2)
    (h : List.Forall₂ (·.Relabelled (lay.swapAll swaps) ·) is js) :
    ∃ ks, List.Forall₂ (·.Relabelled lay ·) is ks ∧
      meaning I (swapsAsCx swaps) * meaning I js = meaning I ks * meaning I (swapsAsCx swaps) := by
  induction h
  case nil => exact ⟨[], .nil, by simp⟩
  case cons here _ hi =>
    have ⟨k, rel, eq⟩ := laws.past_swaps distinct here
    have ⟨ks, rels, eqs⟩ := hi
    refine ⟨k :: ks, .cons rel rels, ?_⟩
    rw [meaning_cons, ← mul_assoc, eq, mul_assoc, eqs, meaning_cons, mul_assoc]

-- What is emitted means the program on the first layout, followed by all swaps.
theorem emits {gs : List Routing.Group} {out : List Instruction}
    (h : Routing.Emits d lay gs out last) (proper : ∀ i ∈ out, i.Proper) :
    ∃ is js,
      List.Forall₂ (fun n i => d.instruction? n = some i) (gs.flatMap Routing.Group.nodes) is ∧
      List.Forall₂ (·.Relabelled lay ·) is js ∧
      meaning I out = meaning I js * meaning I (swapsAsCx (gs.flatMap Routing.Group.swaps)) := by
  induction h
  case nil => exact ⟨[], [], .nil, .nil, by simp [swapsAsCx]⟩
  case cons lay last g gs placed out nodes _ hi =>
    obtain ⟨is₁, found, rel₁⟩ := exists_between_of_forall₂ nodes
    obtain ⟨is₂, js₂, found₂, rel₂, eq₂⟩ := hi fun i hi => proper i (by simp [hi])
    have distinct : ∀ e ∈ g.swaps, e.1 ≠ e.2 := by
      intro e he
      have mem : cx e.1 e.2 ∈ swapsAsCx g.swaps :=
        List.mem_flatMap.mpr ⟨e, he, by simp [swapAsCx]⟩
      simpa [cx, gate] using (proper (cx e.1 e.2) (by simp [mem])).nodup
    obtain ⟨js, rel, eq⟩ := laws.past_swaps_all distinct (List.rel_append rel₁ rel₂)
    refine ⟨is₁ ++ is₂, js, ?_, rel, ?_⟩
    case refine_1 =>
      rw [List.flatMap_cons]
      exact List.rel_append found found₂
    case refine_2 =>
      have cut : swapsAsCx (g.swaps ++ gs.flatMap Routing.Group.swaps) =
          swapsAsCx g.swaps ++ swapsAsCx (gs.flatMap Routing.Group.swaps) := List.flatMap_append
      rw [meaning_append] at eq
      rw [List.flatMap_cons, cut, meaning_append, meaning_append, meaning_append, eq₂,
        ← mul_assoc (meaning I js), ← eq]
      simp only [mul_assoc]

end Lawful

theorem Dag.opsAt_eq_zip {ns : List Nat}
    (h : List.Forall₂ (fun n i => d.instruction? n = some i) ns is) :
    (d.opsAt ns).map Prod.snd = is := by
  induction h
  case nil => rfl
  case cons here _ hi =>
    rw [Dag.opsAt] at hi ⊢
    simp [here, hi]

-- A program whose expansion was relabelled can be relabelled before it is expanded.
theorem exists_relabelled_of_expand (proper : ∀ i ∈ is, i.Proper)
    (places : ∀ i ∈ is, ∀ q ∈ i.qubits, (lay.physical? q).isSome)
    (h : List.Forall₂ (·.Relabelled lay ·) (is.flatMap (·.expand basis)) js) :
    ∃ ks, List.Forall₂ (·.Relabelled lay ·) is ks ∧ js = ks.flatMap (·.expand basis) := by
  induction is generalizing js
  case nil =>
    cases h
    exact ⟨[], .nil, rfl⟩
  case cons i is hi =>
    have ⟨proper, properLater⟩ := List.forall_mem_cons.mp proper
    have ⟨places, placesLater⟩ := List.forall_mem_cons.mp places
    have ⟨left, right, eq, first, rest⟩ := exists_append_of_forall₂ (List.flatMap_cons ▸ h)
    have ⟨k, rel⟩ := exists_relabelled places
    have ⟨ks, rels, eq'⟩ := hi properLater placesLater rest
    have unique : Relator.RightUnique (Instruction.Relabelled lay) :=
      fun _ _ _ => Relabelled.right_unique
    have same := List.right_unique_forall₂' unique first (rel.expand proper)
    exact ⟨k :: ks, .cons rel rels, by rw [eq, same, eq', List.flatMap_cons]⟩

theorem map_allRecords (groups : List (List Routing.Group)) (first : Nat) :
    ((Routing.allRecords groups first).map fun s => (s.first, s.second)) =
      groups.flatten.flatMap Routing.Group.swaps := by
  induction groups generalizing first
  case nil => rfl
  case cons gs groups hi =>
    have cut : Routing.allRecords (gs :: groups) first =
        Routing.records first gs ++ Routing.allRecords groups (first + 1) := rfl
    rw [cut, List.map_append, hi, List.flatten_cons, List.flatMap_append]
    simp [Routing.records, Function.comp_def]

theorem Lawful.expand_all (laws : Lawful basis I) (proper : ∀ i ∈ is, i.Proper)
    (plain : ∀ i ∈ is, i.Plain) : meaning I (is.flatMap (·.expand basis)) = meaning I is :=
  meaning_flatMap fun i hi => laws.expand (plain i hi) (proper i hi)

theorem Routing.nodes_of_layers {groups : List (List Group)} {layers : List (List Nat)}
    (h : List.Forall₂ (fun gs layer => gs.flatMap Group.nodes = layer) groups layers) :
    groups.flatten.flatMap Group.nodes = layers.flatten := by
  induction h
  case nil => rfl
  case cons here _ hi => simp [here, hi]

-- The swaps that a compilation reports, without their layers.
def CompiledCircuit.exchanges (r : CompiledCircuit) : List (Nat × Nat) :=
  r.swaps.map fun s => (s.first, s.second)

namespace Instruction

theorem clbits_unroll {g : Gate} {qs : List Nat} (h : j ∈ unroll basis g qs) : j.clbits = [] := by
  cases g
  case id =>
    simp only [unroll] at h
    split at h
    case isTrue => exact List.mem_singleton.mp h ▸ rfl
    case isFalse => simp at h
  case cz =>
    simp only [unroll, List.mem_cons, List.not_mem_nil, or_false] at h
    rcases h with rfl | rfl | rfl <;> rfl
  case swap => exact clbits_swapAsCx h
  all_goals exact List.mem_singleton.mp h ▸ rfl

theorem Plain.expand (plain : i.Plain) (h : j ∈ i.expand basis) : j.Plain := by
  rw [Instruction.expand] at h
  split at h
  case h_2 => exact List.mem_singleton.mp h ▸ plain
  case h_1 g action =>
    split at h
    case isTrue => exact List.mem_singleton.mp h ▸ plain
    case isFalse => exact .inr (clbits_unroll h)

theorem Plain.turned {m : CouplingMap} {turn : Gate} (plain : i.Plain) (h : j ∈ i.turned m turn) :
    j.Plain := by
  rw [Instruction.turned] at h
  split at h
  case isTrue => rcases of_mem_reversedCx h with rfl | rfl | rfl <;> exact .inr rfl
  case isFalse => exact List.mem_singleton.mp h ▸ plain

end Instruction

theorem Routing.Emits.plain {gs : List Group} {out : List Instruction} (h : Emits d lay gs out last)
    (plain : ∀ n i, d.instruction? n = some i → i.Plain) : ∀ j ∈ out, j.Plain := by
  intro j hj
  rcases h.of_mem hj with ⟨a, b, hj⟩ | ⟨_, _, n, _, i, _, found, rel⟩
  · exact .inr (Instruction.clbits_swapAsCx hj)
  · exact rel.plain (plain n i found)

namespace Compiler

variable {k : Compiler} {m : CouplingMap} {c : Circuit} {r : CompiledCircuit}
  {groups : List (List Routing.Group)} {out : List Instruction} {unfused : Dag}
  {seq : List (Nat × Instruction)}

theorem Stages.exchanges_eq (h : k.Stages m c r d groups out unfused seq) :
    r.exchanges = groups.flatten.flatMap Routing.Group.swaps := by
  rw [CompiledCircuit.exchanges, h.swaps, map_allRecords]

-- What comes after routing does not change the meaning.
theorem Stages.meaning_out (h : k.Stages m c r d groups out unfused seq)
    (laws : Lawful k.options.basis I) (exact : unfused.FusesExactly k.options.basis I)
    (plain : ∀ i ∈ out, i.Plain) : meaning I r.circuit.dag.instructions = meaning I out := by
  have ⟨seq', oriented, polished⟩ := h.polished
  have plain' : ∀ j ∈ seq'.map Prod.snd, j.Plain := by
    intro j hj
    rw [oriented] at hj
    have ⟨i, hi, hj⟩ := List.mem_flatMap.mp hj
    exact (plain i hi).turned hj
  calc meaning I r.circuit.dag.instructions
    _ = meaning I (seq.map Prod.snd) := laws.reorders h.compiled.reorders_instructions
    _ = meaning I (seq'.map Prod.snd) := (laws.simplifies exact (polished.simplifies plain')).symm
    _ = meaning I (out.flatMap (·.turned m (.hadamard k.options.basis))) := by rw [oriented]
    _ = meaning I out := meaning_flatMap fun i hi => laws.turned m (plain i hi) (h.proper i hi)

theorem Stages.meaning (h : k.Stages m c r d groups out unfused seq)
    (laws : Lawful k.options.basis I) (exact : unfused.FusesExactly k.options.basis I)
    (proper : ∀ i ∈ c.dag.instructions, i.Proper) (plain : ∀ i ∈ c.dag.instructions, i.Plain)
    (qubits : ∀ i ∈ c.dag.instructions, ∀ q ∈ i.qubits, c.dag.hasWire (.qubit q)) :
    ∃ placed, List.Forall₂ (·.Relabelled r.initialLayout ·) c.dag.instructions placed ∧
      meaning I r.circuit.dag.instructions =
        meaning I placed * meaning I (swapsAsCx r.exchanges) := by
  have ⟨seq₀, serial⟩ := h.serial
  have plain₁ : ∀ n i, d.instruction? n = some i → i.Plain := by
    intro n i found
    have mem := serial.mem_instructions.mpr ⟨n, found⟩
    rw [h.expanded] at mem
    have ⟨j, hj, hi⟩ := List.mem_flatMap.mp mem
    exact (plain j hj).expand hi
  have ⟨is, js, found, rel, emitted⟩ := laws.emits h.emits h.proper
  -- The layers read one after the other are an order of the expanded program.
  rw [Routing.nodes_of_layers h.layers] at found
  have order := serial.layers.2.reorders_instructions
  rw [Dag.opsAt_eq_zip found, h.expanded] at order
  have ⟨js₀, rel₀, order₀⟩ := order.relabelled rel
  have ⟨_, checked⟩ := Placement.choose_eq_ok_iff.mp h.chosen
  have ⟨places, _⟩ := Placement.check_eq_ok_iff.mp checked
  have ⟨placed, rel', eq⟩ := exists_relabelled_of_expand proper
    (fun i hi q hq => places q (Dag.mem_qubits.mpr ((h.wires _).mpr (qubits i hi q hq)))) rel₀
  have proper' : ∀ j ∈ placed, j.Proper ∧ j.Plain := by
    intro j hj
    have ⟨i, hi, rel⟩ := exists_left_of_forall₂ rel' hj
    exact ⟨rel.proper (proper i hi), rel.plain (plain i hi)⟩
  refine ⟨placed, rel', ?_⟩
  rw [h.meaning_out laws exact (h.emits.plain plain₁), emitted, h.exchanges_eq, ← laws.reorders order₀, eq,
    laws.expand_all (fun j hj => (proper' j hj).1) fun j hj => (proper' j hj).2]

-- Without a device the program is expanded and polished.
theorem meaning_of_polished {d' : Dag} (laws : Lawful basis I) (exact : unfused.FusesExactly basis I)
    (expanded : d.instructions = is.flatMap (·.expand basis))
    (polished : Dag.Polished basis unfused d.topologicalOps seq) (compiled : d'.Serial seq)
    (proper : ∀ i ∈ is, i.Proper) (plain : ∀ i ∈ is, i.Plain) :
    meaning I d'.instructions = meaning I is := by
  have plain' : ∀ j ∈ d.instructions, j.Plain := by
    intro j hj
    rw [expanded] at hj
    have ⟨i, hi, hj⟩ := List.mem_flatMap.mp hj
    exact (plain i hi).expand hj
  calc meaning I d'.instructions
    _ = meaning I (seq.map Prod.snd) := laws.reorders compiled.reorders_instructions
    _ = meaning I d.instructions := (laws.simplifies exact (polished.simplifies plain')).symm
    _ = meaning I (is.flatMap (·.expand basis)) := by rw [expanded]
    _ = meaning I is := laws.expand_all proper plain

theorem compileWith_preserves_meaning {M : Type*} [Monoid M] {I : Instruction → M} {σ : Type}
    (chooser : Chooser σ) (random : σ) (seed : UInt64) (k : Compiler) {c : Circuit}
    {r : CompiledCircuit} (laws : Lawful k.options.basis I) (built : c.Built)
    (plain : ∀ n i, c.dag.instruction? n = some i → i.Plain)
    (exact : (k.unfused chooser random c).FusesExactly k.options.basis I)
    (ok : k.compileWith chooser random seed c = .ok r) :
    ∃ placed, List.Forall₂ (·.Relabelled r.initialLayout ·) c.dag.instructions placed ∧
      meaning I r.circuit.dag.instructions =
        meaning I placed * meaning I (swapsAsCx r.exchanges) ∧
      r.finalLayout = r.initialLayout.swapAll r.exchanges := by
  have once : ∀ n i, c.dag.instruction? n = some i → i.clbits.Nodup := by
    intro n i found
    cases plain n i found
    case inl measure =>
      obtain ⟨b, eq⟩ := List.length_eq_one_iff.mp ((built.fits n i found).measure measure)
      simp [eq]
    case inr none => simp [none]
  obtain ⟨d, expanded, program, ⟨seq₁, serial₁⟩, wires⟩ := exists_expanded built once k.options.basis
  obtain ⟨seq, serial⟩ := built.serial once
  have proper : ∀ i ∈ c.dag.instructions, i.Proper := fun i hi =>
    have ⟨n, found⟩ := serial.mem_instructions.mp hi
    (built.fits n i found).proper
  have plain' : ∀ i ∈ c.dag.instructions, i.Plain := fun i hi =>
    have ⟨n, found⟩ := serial.mem_instructions.mp hi
    plain n i found
  have qubits : ∀ i ∈ c.dag.instructions, ∀ q ∈ i.qubits, c.dag.hasWire (.qubit q) := fun i hi =>
    have ⟨n, found⟩ := serial.mem_instructions.mp hi
    (built.fits n i found).qubits
  cases device : k.options.couplingMap
  case none =>
    obtain ⟨seq', r', eq, compiled, polished, first, last, swaps⟩ := compileWith_of_none chooser random
      seed built device expanded serial₁.topologicalOps wires
    cases ok.symm.trans eq
    have none : r.exchanges = [] := by rw [CompiledCircuit.exchanges, swaps]; rfl
    refine ⟨c.dag.instructions, ?_, ?_, by rw [first, last, none]; rfl⟩
    case refine_1 =>
      refine List.forall₂_same.mpr fun i hi => ⟨rfl, List.forall₂_same.mpr fun q hq => ?_, rfl⟩
      rw [first, Layout.physical?_trivial, if_pos ((built.hasWire_qubit q).mp (qubits i hi q hq))]
    case refine_2 =>
      rw [none, meaning_of_polished laws exact program polished compiled proper plain']
      simp [swapsAsCx]
  case some m =>
    obtain ⟨_, _, _, _, stages⟩ := exists_stages built once device ok
    obtain ⟨placed, rel, eq⟩ := stages.meaning laws exact proper plain' qubits
    exact ⟨placed, rel, eq, stages.exchanges_eq ▸ stages.emits.last_eq⟩

theorem compileWith_preserves_meaning_chain :
    ∃ r, chainCompiler.compileWith Chooser.first () 0 chainCircuit = .ok r ∧
      Lawful chainCompiler.options.basis tracked ∧
      (chainCompiler.unfused Chooser.first () chainCircuit).FusesExactly chainCompiler.options.basis
        tracked ∧
      ∃ placed, List.Forall₂ (·.Relabelled r.initialLayout ·) chainCircuit.dag.instructions placed ∧
        meaning tracked r.circuit.dag.instructions =
          meaning tracked placed * meaning tracked (swapsAsCx r.exchanges) ∧
        r.finalLayout = r.initialLayout.swapAll r.exchanges := by
  have ⟨r, ok⟩ := compileWith_of_isOk Chooser.first () 0 chainCompiler chainCircuit
    (by decide +kernel)
  have plain : ∀ x ∈ chainCircuit.dag.opNodes, x.2.isMeasure ∨ x.2.clbits = [] := by decide +kernel
  have none : ∀ x ∈ (chainCompiler.unfused Chooser.first () chainCircuit).opNodes,
      x.2.isOneQubitGate = false := by decide +kernel
  have exact : (chainCompiler.unfused Chooser.first () chainCircuit).FusesExactly
      chainCompiler.options.basis tracked :=
    Dag.fusesExactly_of_forall fun n i found => none (n, i) (Dag.mem_opNodes_iff.mpr found)
  exact ⟨r, ok, tracked_lawful _, exact, compileWith_preserves_meaning _ _ _ _ (tracked_lawful _)
    chainCircuit_built (fun n i found => plain (n, i) (Dag.mem_opNodes_iff.mpr found)) exact ok⟩

end Compiler

end CircuitRouting
