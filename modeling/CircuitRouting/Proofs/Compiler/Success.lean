import CircuitRouting.Proofs.Compiler.Stages
import CircuitRouting.Proofs.Pass.Placement
import CircuitRouting.Proofs.Routing.Success

/-!
# When a compilation succeeds

Without a device a compilation always succeeds. With one it succeeds if and only if a layout can be
chosen: from there on nothing can fail, since routing ends with all controlled NOTs on coupled qubits.
-/

namespace CircuitRouting

namespace CompileOptions

variable {o : CompileOptions} {m : CouplingMap} {lay : Layout}

-- Options that have been checked have their layout on the device.
theorem lt_numQubits_of_validate (valid : o.validate = .ok ()) (device : o.couplingMap = some m)
    (given : o.initialLayout = some lay) : ∀ x ∈ lay.pairs, x.2 < m.numQubits := by
  have ⟨_, _, checked⟩ := bind_eq_ok_iff.mp valid
  rw [given] at checked
  simp only [checkLayout, device] at checked
  split at checked
  case h_1 => contradiction
  case h_2 none =>
    intro x hx
    have := List.find?_eq_none.mp none x hx
    simpa using this

end CompileOptions

namespace Compiler

variable {k : Compiler} {σ : Type} {chooser : Chooser σ} {random : σ} {seed : UInt64} {c : Circuit}
  {m : CouplingMap} {d : Dag} {seq : List (Nat × Instruction)}

section Device

variable (built : c.Built) (cap : k.options.effort.swapCap = none)
  (device : k.options.couplingMap = some m) (expanded : c.dag.expand k.options.basis = .ok d)
  (serial : d.Serial seq) (wires : ∀ w, d.hasWire w ↔ c.dag.hasWire w)
include built cap device expanded serial wires

theorem exists_compileWith_of_choose (chooser : Chooser σ) (random : σ) (seed : UInt64)
    {lay : Layout} (chosen : Placement.choose m k.options.initialLayout d = .ok lay) :
    ∃ r, k.compileWith chooser random seed c = .ok r := by
  have ⟨_, checked⟩ := Placement.choose_eq_ok_iff.mp chosen
  have ⟨placed, _, connected⟩ := Placement.check_eq_ok_iff.mp checked
  have ⟨p, routed, coupled⟩ := Routing.exists_routeAll chooser random cap
    (fun n i found => serial.fits (n, i) ((serial.mem_iff n i).mpr found))
    (fun q hq => placed q (Dag.mem_qubits.mpr hq)) connected
  have ⟨_, _, _, _, _, serial', level, qubits, clbits⟩ := exists_routed built wires serial routed
  have ⟨_, _, r, eq, _⟩ := compileWith_of_coupled device expanded seed chosen routed serial' level
    qubits clbits coupled
  exact ⟨r, eq⟩

theorem exists_compileWith_iff :
    (∃ r, k.compileWith chooser random seed c = .ok r) ↔
      ∃ lay, Placement.choose m k.options.initialLayout d = .ok lay := by
  constructor
  case mp =>
    intro ⟨r, ok⟩
    have ⟨lay, _, chosen, _⟩ := of_compileWith device expanded ok
    exact ⟨lay, chosen⟩
  case mpr =>
    intro ⟨lay, chosen⟩
    exact exists_compileWith_of_choose built cap device expanded serial wires chooser random seed chosen

theorem refusal_of_compileWith {e : CompileError}
    (failed : k.compileWith chooser random seed c = .error e) : Placement.Refusal e := by
  cases chosen : Placement.choose m k.options.initialLayout d
  case ok lay =>
    have ⟨r, ok⟩ := exists_compileWith_of_choose built cap device expanded serial wires chooser random
      seed chosen
    cases failed.symm.trans ok
  case error e' =>
    cases failed.symm.trans (compileWith_of_choose_error device expanded chosen)
    exact Placement.refusal_of_choose chosen

end Device

theorem compileWith_ok_iff {σ : Type} (chooser : Chooser σ) (random : σ) (seed : UInt64)
    (k : Compiler) {c : Circuit} (built : c.Built)
    (once : ∀ n i, c.dag.instruction? n = some i → i.clbits.Nodup)
    (cap : k.options.effort.swapCap = none) :
    (k.options.couplingMap = none → ∃ r, k.compileWith chooser random seed c = .ok r) ∧
    (∀ m, k.options.couplingMap = some m →
      (k.options.initialLayout = none →
        ((∃ r, k.compileWith chooser random seed c = .ok r) ↔
          c.numQubits = 0 ∨ ∃ q < m.numQubits, c.numQubits ≤ (m.component q).ncard)) ∧
      ∀ lay, k.options.initialLayout = some lay →
        ((∃ r, k.compileWith chooser random seed c = .ok r) ↔
          (∀ q, (lay.physical? q).isSome ↔ q < c.numQubits) ∧ m.Connected lay.occupied)) ∧
    ∀ e, k.compileWith chooser random seed c = .error e →
      (∀ layer trials, e ≠ .routingFailed layer trials) ∧
      (∀ a b, e ≠ .unsupportedConnection a b) ∧ e ≠ .missingLayout ∧ ∀ x, e ≠ .circuit x := by
  obtain ⟨d, expanded, _, ⟨seq, serial⟩, wires⟩ := exists_expanded built once k.options.basis
  have qubits : d.qubits = List.range c.numQubits :=
    Dag.qubits_eq_range fun q => (wires _).trans (built.hasWire_qubit q)
  have numQubits : d.numQubits = c.numQubits := by simp [Dag.numQubits, qubits]
  have free : k.options.couplingMap = none → ∃ r, k.compileWith chooser random seed c = .ok r := by
    intro none
    obtain ⟨_, r, eq, _⟩ := compileWith_of_none chooser random seed built none expanded serial wires
    exact ⟨r, eq⟩
  refine ⟨free, fun m device => ⟨fun none => ?_, fun lay given => ?_⟩, fun e failed => ?_⟩
  case refine_1 =>
    rw [exists_compileWith_iff built cap device expanded serial wires, none, ← numQubits]
    exact Placement.exists_choose_none_iff serial
  case refine_2 =>
    have inside := CompileOptions.lt_numQubits_of_validate k.valid device given
    rw [exists_compileWith_iff built cap device expanded serial wires, given,
      Placement.exists_choose_some_iff inside, qubits]
    simp only [List.mem_range]
  case refine_3 =>
    have refusal : Placement.Refusal e := by
      cases device : k.options.couplingMap
      case none =>
        obtain ⟨r, ok⟩ := free device
        cases failed.symm.trans ok
      case some m => exact refusal_of_compileWith built cap device expanded serial wires failed
    refine ⟨?_, ?_, ?_, ?_⟩
    case refine_1 =>
      rintro _ _ rfl
      exact refusal
    case refine_2 =>
      rintro _ _ rfl
      exact refusal
    case refine_3 =>
      rintro rfl
      exact refusal
    case refine_4 =>
      rintro _ rfl
      exact refusal

theorem compileWith_ok_iff_chain :
    chainCompiler.options.effort.swapCap = none ∧
      chainCircuit.numQubits ≤ ((CouplingMap.linear 3).symmetric.component 0).ncard ∧
      ∃ r, chainCompiler.compileWith Chooser.first () 0 chainCircuit = .ok r := by
  have once : ∀ x ∈ chainCircuit.dag.opNodes, x.2.clbits.Nodup := by decide +kernel
  have room : chainCircuit.numQubits ≤ ((CouplingMap.linear 3).symmetric.component 0).ncard := by
    rw [← CouplingMap.componentSizes_eq (by decide)]
    decide +kernel
  have ⟨_, device, _⟩ := compileWith_ok_iff Chooser.first () 0 chainCompiler chainCircuit_built
    (fun n i found => once (n, i) (Dag.mem_opNodes_iff.mpr found)) rfl
  exact ⟨rfl, room, ((device _ rfl).1 rfl).mpr (.inr ⟨0, by decide, room⟩)⟩

end Compiler

end CircuitRouting
