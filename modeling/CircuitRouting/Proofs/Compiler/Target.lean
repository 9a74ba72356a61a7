import CircuitRouting.Proofs.Compiler.Stages
import CircuitRouting.Proofs.Expansion.Native

/-!
# Compiled programs run on the target

Expansion leaves only gates that the basis lists, and the later passes bring in no others. Orientation
leaves only controlled NOTs along the edges of the device, and what comes after it removes some of them.
-/

namespace CircuitRouting

namespace Instruction

variable {basis : Basis} {i : Instruction}

-- A listed gate on two qubits is a controlled NOT.
theorem isCx_of_native {d : Dag} (known : ∀ g ∈ basis.gates, g ∈ Basis.supported ∨ g ∈ Basis.always)
    (native : i.Native basis) (fits : d.Fits i) (two : i.isTwoQubitGate) : i.isCx := by
  have ⟨⟨a, b⟩, pair⟩ := Option.isSome_iff_exists.mp two
  rw [pair?] at pair
  split at pair
  case h_2 => contradiction
  case h_1 g _ _ action qubits =>
    have listed := known g.name (native g action)
    have arity : g.arity = 2 := by simpa [qubits] using (fits.arity g.arity (by rw [action]; rfl)).symm
    rw [isCx, action]
    cases g <;> simp_all [Gate.arity, Gate.name, Basis.supported, Basis.always]

end Instruction

namespace Routing

variable {basis : Basis} {d : Dag} {lay last : Layout} {gs : List Group} {out : List Instruction}

-- Routing adds only controlled NOTs.
theorem Emits.native (h : Emits d lay gs out last) (cx : "cx" ∈ basis.gates)
    (native : ∀ n i, d.instruction? n = some i → i.Native basis) : ∀ j ∈ out, j.Native basis := by
  intro j hj
  rcases h.of_mem hj with ⟨a, b, hj⟩ | ⟨_, _, n, _, i, _, found, rel⟩
  · exact Instruction.native_swapAsCx cx hj
  · exact fun g action => native n i found g (rel.action ▸ action)

end Routing

namespace Compiler

variable {k : Compiler}

theorem of_valid (k : Compiler) :
    (∀ g ∈ k.options.basis.gates, g ∈ Basis.supported ∨ g ∈ Basis.always) ∧
      "u3" ∈ k.options.basis.gates ∧ "cx" ∈ k.options.basis.gates := by
  have ⟨_, basis, _⟩ := bind_eq_ok_iff.mp k.valid
  exact Basis.of_validate (mapError_eq_ok_iff.mp basis)

-- Cancellation and fusion keep to the basis.
theorem native_of_polished {unfused : Dag} {seq seq' : List (Nat × Instruction)}
    (h : Dag.Polished k.options.basis unfused seq seq')
    (native : ∀ i ∈ seq.map Prod.snd, i.Native k.options.basis) :
    ∀ i ∈ seq'.map Prod.snd, i.Native k.options.basis := by
  intro i hi
  cases h.mem i hi
  case inl hi => exact native i hi
  case inr fused =>
    have ⟨q, u, g, found, eq⟩ := fused
    refine eq ▸ Instruction.native_gate ?_
    cases (Gate.of_synthesize found).2
    case inl u3 => exact u3 ▸ k.of_valid.2.1
    case inr has => exact Basis.mem_gates_of_contains has

variable {m : CouplingMap} {c : Circuit} {r : CompiledCircuit} {d unfused : Dag}
  {groups : List (List Routing.Group)} {out : List Instruction} {seq : List (Nat × Instruction)}

theorem Stages.native (h : k.Stages m c r d groups out unfused seq) :
    ∀ i ∈ seq.map Prod.snd, i.Native k.options.basis := by
  have ⟨_, u3, cx⟩ := k.of_valid
  have ⟨seq₀, serial⟩ := h.serial
  have expanded : ∀ n i, d.instruction? n = some i → i.Native k.options.basis := by
    intro n i found
    have mem := serial.mem_instructions.mpr ⟨n, found⟩
    rw [h.expanded] at mem
    have ⟨j, _, hi⟩ := List.mem_flatMap.mp mem
    exact Instruction.native_expand u3 cx hi
  have ⟨seq', oriented, polished⟩ := h.polished
  refine native_of_polished polished fun j hj => ?_
  rw [oriented] at hj
  have ⟨i, hi, hj⟩ := List.mem_flatMap.mp hj
  rw [Instruction.turned] at hj
  split at hj
  case isTrue =>
    rcases Instruction.of_mem_reversedCx hj with rfl | rfl | rfl
    · exact Instruction.native_gate (Gate.mem_gates_hadamard u3)
    · exact Instruction.native_gate (Gate.mem_gates_hadamard u3)
    · exact Instruction.native_cx cx _ _
  case isFalse =>
    cases List.mem_singleton.mp hj
    exact h.emits.native cx expanded j hi

-- The two-qubit gates of the compiled program run along edges.
theorem Stages.directed (h : k.Stages m c r d groups out unfused seq) {x : Nat × Instruction}
    (hx : x ∈ seq) (two : x.2.isTwoQubitGate) :
    ∃ a b, x.2.action = .gate .cx ∧ x.2.qubits = [a, b] ∧ m.hasEdge a b := by
  obtain ⟨known, _, _⟩ := k.of_valid
  obtain ⟨n, j⟩ := x
  have hj : j ∈ seq.map Prod.snd := List.mem_map_of_mem hx
  have fits := (h.compiled.fits _ hx).toFits
  have cx := Instruction.isCx_of_native known (h.native j hj) fits two
  obtain ⟨action, qubits⟩ := Instruction.qubits_of_isCx fits.proper cx
  refine ⟨j.control, j.target, action, qubits, ?_⟩
  obtain ⟨seq', oriented, polished⟩ := h.polished
  cases polished.mem j hj
  case inr fused =>
    obtain ⟨q, u, g, _, eq⟩ := fused
    simp [eq, Instruction.gate] at qubits
  case inl hj =>
    rw [oriented] at hj
    obtain ⟨i, hi, hj⟩ := List.mem_flatMap.mp hj
    rw [Instruction.turned] at hj
    split at hj
    case isFalse kept =>
      cases List.mem_singleton.mp hj
      simpa [cx] using kept
    case isTrue turned =>
      rcases Instruction.of_mem_reversedCx hj with rfl | rfl | rfl
      · simp [Instruction.gate] at qubits
      · simp [Instruction.gate] at qubits
      · have back : m.hasEdge i.target i.control := by
          simpa [CouplingMap.coupled, turned.2] using h.coupled i hi turned.1
        exact back

theorem compileWith_runs_on_target {σ : Type} (chooser : Chooser σ) (random : σ) (seed : UInt64)
    (k : Compiler) {c : Circuit} {r : CompiledCircuit} (built : c.Built)
    (once : ∀ n i, c.dag.instruction? n = some i → i.clbits.Nodup)
    (ok : k.compileWith chooser random seed c = .ok r) :
    ∀ n i, r.circuit.dag.instruction? n = some i →
      (i.isMeasure ∨ i.isBarrier ∨ ∃ g, i.action = .gate g ∧ g.name ∈ k.options.basis.gates) ∧
      ∀ m, k.options.couplingMap = some m →
        (∀ q ∈ i.qubits, q < m.numQubits) ∧
        (i.isTwoQubitGate →
          ∃ a b, i.action = .gate .cx ∧ i.qubits = [a, b] ∧ m.hasEdge a b) := by
  intro n i found
  have cases : i.Native k.options.basis →
      i.isMeasure ∨ i.isBarrier ∨ ∃ g, i.action = .gate g ∧ g.name ∈ k.options.basis.gates := by
    intro native
    cases action : i.action
    case gate g => exact .inr (.inr ⟨g, rfl, native g action⟩)
    case measure => exact .inl (by simp [Instruction.isMeasure, action])
    case barrier => exact .inr (.inl (by simp [Instruction.isBarrier, action]))
  cases device : k.options.couplingMap
  case none =>
    obtain ⟨_, u3, cx⟩ := k.of_valid
    obtain ⟨d, expanded, program, ⟨_, serial⟩, wires⟩ := exists_expanded built once k.options.basis
    obtain ⟨seq', r', eq, compiled, polished, _⟩ := compileWith_of_none chooser random seed
      built device expanded serial.topologicalOps wires
    cases ok.symm.trans eq
    refine ⟨cases ?_, by simp⟩
    have hi := List.mem_map_of_mem (f := Prod.snd) ((compiled.mem_iff n i).mpr found)
    refine native_of_polished polished (fun j hj => ?_) i hi
    have hj : j ∈ d.instructions := hj
    rw [program] at hj
    obtain ⟨_, _, hj⟩ := List.mem_flatMap.mp hj
    exact Instruction.native_expand u3 cx hj
  case some m =>
    obtain ⟨d, groups, out, seq, stages⟩ := exists_stages built once device ok
    have hx := (stages.compiled.mem_iff n i).mpr found
    refine ⟨cases (stages.native i (List.mem_map_of_mem (f := Prod.snd) hx)), ?_⟩
    rintro _ ⟨⟩
    refine ⟨fun q hq => ?_, stages.directed hx⟩
    exact (stages.qubits q).mp ((stages.compiled.fits _ hx).qubits q hq)

theorem compileWith_runs_on_target_chain :
    ∃ r, chainCompiler.compileWith Chooser.first () 0 chainCircuit = .ok r ∧
      ∀ n i, r.circuit.dag.instruction? n = some i →
        (i.isMeasure ∨ i.isBarrier ∨
          ∃ g, i.action = .gate g ∧ g.name ∈ chainCompiler.options.basis.gates) ∧
        ∀ m, chainCompiler.options.couplingMap = some m →
          (∀ q ∈ i.qubits, q < m.numQubits) ∧
          (i.isTwoQubitGate →
            ∃ a b, i.action = .gate .cx ∧ i.qubits = [a, b] ∧ m.hasEdge a b) := by
  have ⟨r, ok⟩ := compileWith_of_isOk Chooser.first () 0 chainCompiler chainCircuit
    (by decide +kernel)
  have once : ∀ x ∈ chainCircuit.dag.opNodes, x.2.clbits.Nodup := by decide +kernel
  exact ⟨r, ok, compileWith_runs_on_target _ _ _ _ chainCircuit_built
    (fun n i found => once (n, i) (Dag.mem_opNodes_iff.mpr found)) ok⟩

end Compiler

end CircuitRouting
