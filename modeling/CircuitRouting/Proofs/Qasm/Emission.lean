import CircuitRouting.Proofs.Dag.Sound
import CircuitRouting.Proofs.Qasm.Declarations

/-!
# Programs that are written in full

If the registers of a circuit cover its wires, each operation has its line, unless it is a gate with a
parameter that is not finite. The registers of a circuit that is built cover its wires, and so do those
that a compiled circuit declares in their place.
-/

namespace CircuitRouting

-- No parameter is infinite or undefined.
def Instruction.Finite (i : Instruction) : Prop :=
  ∀ g, i.action = .gate g → ∀ p ∈ g.params, p.isFinite

namespace Qasm

variable {c : Circuit} {i : Instruction} {ns : List Nat} {e : EmitError} {seq : List (Nat × Instruction)}

-- Every wire has a position in a register.
structure Covered (c : Circuit) : Prop where
  qubits : ∀ q, c.dag.hasWire (.qubit q) → q < c.numQubits
  clbits : ∀ b, c.dag.hasWire (.clbit b) → b < c.numClbits

namespace Covered

variable (covered : Covered c)
include covered

theorem exists_qubit {q : Nat} (h : c.dag.hasWire (.qubit q)) : ∃ s, qubit c q = .ok s := by
  have lt : q < c.qubits.length := by
    rw [Circuit.qubits, Register.length_allBits]
    exact covered.qubits q h
  exact ⟨_, qubit_eq_ok_iff.mpr ⟨_, List.getElem?_eq_getElem lt, rfl⟩⟩

theorem exists_clbit {b : Nat} (h : c.dag.hasWire (.clbit b)) : ∃ s, clbit c b = .ok s := by
  have lt : b < c.clbits.length := by
    rw [Circuit.clbits, Register.length_allBits]
    exact covered.clbits b h
  exact ⟨_, clbit_eq_ok_iff.mpr ⟨_, List.getElem?_eq_getElem lt, rfl⟩⟩

theorem operands_ne_error (h : ∀ q ∈ ns, c.dag.hasWire (.qubit q)) : operands c ns ≠ .error e := by
  intro failed
  have ⟨q, hq, failed⟩ := of_mapM_eq_error (map_eq_error_iff.mp failed)
  have ⟨s, found⟩ := covered.exists_qubit (h q hq)
  rw [found] at failed
  contradiction

-- Only a gate with a parameter that is not finite has no line.
theorem lines_eq_error_iff (fits : c.dag.Fits i) :
    lines c i = .error e ↔ ¬i.Finite ∧ e = .nonFiniteParameter i.name := by
  cases action : i.action
  case gate g =>
    have name : i.name = g.name := by rw [Instruction.name, action]; rfl
    have finite : (g.params.any fun p => !p.isFinite) ↔ ¬i.Finite := by
      simp [Instruction.Finite, action]
    simp only [lines, action]
    by_cases bounded : i.Finite
    case pos =>
      rw [if_neg fun unbounded => finite.mp unbounded bounded, map_eq_error_iff]
      simp [bounded, covered.operands_ne_error fits.qubits]
    case neg =>
      rw [if_pos (finite.mpr bounded), name, Except.error.injEq]
      exact ⟨fun eq => ⟨bounded, eq.symm⟩, fun h => h.2.symm⟩
  case measure =>
    have finite : i.Finite := by simp [Instruction.Finite, action]
    have single : i.qubits.length = i.clbits.length := by
      rw [fits.arity 1 (by simp [action, Action.arity?]),
        fits.measure (by simp [Instruction.isMeasure, action])]
    simp only [lines, action, single, finite]
    simp only [ne_eq, not_true_eq_false, if_false, false_and, iff_false]
    intro failed
    obtain ⟨⟨q, b⟩, mem, failed⟩ := of_mapM_eq_error failed
    obtain ⟨hq, hb⟩ := List.of_mem_zip mem
    obtain ⟨_, quantum⟩ := covered.exists_qubit (fits.qubits q hq)
    obtain ⟨_, classical⟩ := covered.exists_clbit (fits.clbits b hb)
    rw [quantum, classical] at failed
    contradiction
  case barrier =>
    have finite : i.Finite := by simp [Instruction.Finite, action]
    simp [lines, action, finite, map_eq_error_iff, covered.operands_ne_error fits.qubits]

theorem isOk_lines_iff (fits : c.dag.Fits i) : (∃ ls, lines c i = .ok ls) ↔ i.Finite := by
  cases written : lines c i
  case error e =>
    have ⟨unbounded, _⟩ := (covered.lines_eq_error_iff fits).mp written
    simp [unbounded]
  case ok ls =>
    by_contra wrong
    have unbounded : ¬i.Finite := by simpa using wrong
    have failed := (covered.lines_eq_error_iff fits).mpr ⟨unbounded, rfl⟩
    rw [written] at failed
    contradiction

end Covered

-- A circuit is written with a line for each register and for each operation, unless a gate has a
-- parameter that is not finite: then the first such gate is named.
structure Emission (c : Circuit) : Prop where
  listed : c.dag.topologicalOps.Perm c.dag.opNodes
  error_iff : ∀ e, emit c = .error e ↔ ∃ l i r, c.dag.instructions = l ++ i :: r ∧
    (∀ j ∈ l, j.Finite) ∧ ¬i.Finite ∧ e = .nonFiniteParameter i.name
  nonFinite_iff : (∃ name, emit c = .error (.nonFiniteParameter name)) ↔
    ∃ n i, c.dag.instruction? n = some i ∧ ¬i.Finite
  written : (∀ n i, c.dag.instruction? n = some i → i.Finite) →
    ∃ body, List.Forall₂ (Spells c) c.dag.instructions body ∧
      emit c = .ok (String.join ((header ++ c.qregs.map (declaration "qreg") ++
        c.cregs.map (declaration "creg") ++ body).map (· ++ "\n")))

namespace Covered

variable (covered : Covered c) (fits : ∀ i ∈ c.dag.instructions, c.dag.Fits i)
include covered fits

theorem emit_eq_error_iff : emit c = .error e ↔ ∃ l i r, c.dag.instructions = l ++ i :: r ∧
    (∀ j ∈ l, j.Finite) ∧ ¬i.Finite ∧ e = .nonFiniteParameter i.name := by
  have body : emit c = .error e ↔ c.dag.instructions.mapM (lines c) = .error e := by
    rw [emit, map_eq_error_iff, program]
    cases c.dag.instructions.mapM (lines c) <;> simp [bind, Except.bind, pure, Except.pure]
  rw [body, mapM_eq_error_iff]
  refine exists_congr fun l => exists_congr fun i => exists_congr fun r => and_congr_right fun eq => ?_
  have inside : ∀ j ∈ l ++ i :: r, c.dag.Fits j := eq ▸ fits
  refine and_congr (forall₂_congr fun j hj => ?_) ?_
  case refine_1 => exact covered.isOk_lines_iff (inside j (by simp [hj]))
  case refine_2 => exact covered.lines_eq_error_iff (inside i (by simp))

theorem finite_of_emit {text : String} (ok : emit c = .ok text) (hi : i ∈ c.dag.instructions) :
    i.Finite := by
  have ⟨_, listed, _⟩ := map_eq_ok_iff.mp ok
  have ⟨_, emitted, _⟩ := of_program listed
  have ⟨ls, _, written⟩ := exists_left_of_forall₂ emitted.flip hi
  exact (covered.isOk_lines_iff (fits i hi)).mp ⟨ls, written⟩

theorem exists_error_iff : (∃ name, emit c = .error (.nonFiniteParameter name)) ↔
    ∃ i ∈ c.dag.instructions, ¬i.Finite := by
  constructor
  case mp =>
    rintro ⟨name, failed⟩
    have ⟨l, i, r, eq, _, unbounded, _⟩ := (covered.emit_eq_error_iff fits).mp failed
    exact ⟨i, by simp [eq], unbounded⟩
  case mpr =>
    rintro ⟨i, hi, unbounded⟩
    cases emitted : emit c
    case ok text => exact absurd (covered.finite_of_emit fits emitted hi) unbounded
    case error e =>
      have ⟨_, j, _, _, _, _, eq⟩ := (covered.emit_eq_error_iff fits).mp emitted
      exact ⟨j.name, congrArg Except.error eq⟩

theorem exists_text (finite : ∀ i ∈ c.dag.instructions, i.Finite) :
    ∃ body, List.Forall₂ (Spells c) c.dag.instructions body ∧
      emit c = .ok (String.join ((header ++ c.qregs.map (declaration "qreg") ++
        c.cregs.map (declaration "creg") ++ body).map (· ++ "\n"))) := by
  cases emitted : emit c
  case error e =>
    have ⟨l, i, r, eq, _, unbounded, _⟩ := (covered.emit_eq_error_iff fits).mp emitted
    exact absurd (finite i (by simp [eq])) unbounded
  case ok text =>
    have ⟨ls, listed, joined⟩ := map_eq_ok_iff.mp emitted
    have ⟨body, spelled, eq⟩ := spells_of_fits fits listed
    exact ⟨body, spelled, by rw [← joined, eq]⟩

omit fits in
theorem emission (serial : c.dag.Serial seq) : Emission c := by
  have fits : ∀ i ∈ c.dag.instructions, c.dag.Fits i := fun i hi => by
    have ⟨n, found⟩ := serial.mem_instructions.mp hi
    exact (serial.fits (n, i) ((serial.mem_iff n i).mpr found)).toFits
  refine ⟨serial.perm_topologicalOps.symm.trans serial.perm_opNodes,
    fun e => covered.emit_eq_error_iff fits, ?_, fun finite => covered.exists_text fits fun i hi => ?_⟩
  case refine_1 =>
    rw [covered.exists_error_iff fits]
    simp only [serial.mem_instructions]
    exact ⟨fun ⟨i, ⟨n, found⟩, h⟩ => ⟨n, i, found, h⟩, fun ⟨n, i, found, h⟩ => ⟨i, ⟨n, found⟩, h⟩⟩
  case refine_2 =>
    have ⟨n, found⟩ := serial.mem_instructions.mp hi
    exact finite n i found

end Covered

end Qasm

namespace Compiler

variable {k : Compiler} {σ : Type} {chooser : Chooser σ} {random : σ} {seed : UInt64} {c : Circuit}
  {r : CompiledCircuit}

-- A compiled program has the wires of the registers that take the place of those of the circuit.
theorem exists_serial_compiled (built : c.Built)
    (once : ∀ n i, c.dag.instruction? n = some i → i.clbits.Nodup)
    (ok : k.compileWith chooser random seed c = .ok r) :
    ∃ seq, r.circuit.dag.Serial seq ∧
      (∀ q, r.circuit.dag.hasWire (.qubit q) ↔ q < Register.total (k.quantumRegisters c)) ∧
      ∀ b, r.circuit.dag.hasWire (.clbit b) ↔ b < Register.total c.cregs := by
  obtain ⟨d, expanded, _, ⟨seq, serial⟩, wires⟩ := exists_expanded built once k.options.basis
  cases device : k.options.couplingMap
  case none =>
    obtain ⟨d', seq', run, wires', serial', _⟩ :=
      run_passes_of_none chooser random device expanded serial wires
    obtain ⟨w, ⟨compiled, first, last⟩, run', _, done, same⟩ := compileWith_eq_ok_iff.mp ok
    cases run.symm.trans run'
    cases same
    have dag : compiled.dag = d' := (of_finish done).1
    simp only [outcome, dag, quantumRegisters, device]
    exact ⟨seq', serial', fun q => (wires' _).trans (built.hasWire_qubit q),
      fun b => (wires' _).trans (built.hasWire_clbit b)⟩
  case some m =>
    obtain ⟨lay, p, chosen, routed, coupled⟩ := of_compileWith device expanded ok
    obtain ⟨_, _, _, _, _, serial', level, qubits, clbits⟩ := exists_routed built wires serial routed
    obtain ⟨_, seq', r', eq, compiled, alike, _⟩ := compileWith_of_coupled device expanded seed chosen
      routed serial' level qubits clbits (coupled level)
    cases ok.symm.trans eq
    refine ⟨seq', compiled, fun q => (alike.hasWire _).trans ((qubits q).trans ?_),
      fun b => (alike.hasWire _).trans (clbits b)⟩
    simp [quantumRegisters, device, Register.total]

theorem covered_compiled (built : c.Built)
    (once : ∀ n i, c.dag.instruction? n = some i → i.clbits.Nodup)
    (ok : k.compileWith chooser random seed c = .ok r) : Qasm.Covered r.circuit := by
  have ⟨_, _, qubits, clbits⟩ := exists_serial_compiled built once ok
  have ⟨qregs, cregs⟩ := registers_of_compileWith ok
  constructor
  case qubits =>
    intro q hq
    rw [Circuit.numQubits, qregs, Register.total_filter]
    exact (qubits q).mp hq
  case clbits =>
    intro b hb
    rw [Circuit.numClbits, cregs, Register.total_filter]
    exact (clbits b).mp hb

end Compiler

namespace Qasm

theorem emission_of_built {c : Circuit} (built : c.Built)
    (once : ∀ n i, c.dag.instruction? n = some i → i.clbits.Nodup) :
    Emission c ∧ ∀ (k : Compiler) (fresh : UInt64) (r : CompiledCircuit),
      k.compile fresh c = .ok r → Emission r.circuit := by
  refine ⟨?_, fun k fresh r ok => ?_⟩
  case refine_1 =>
    have ⟨seq, serial⟩ := built.serial once
    have covered : Covered c :=
      ⟨fun q => (built.hasWire_qubit q).mp, fun b => (built.hasWire_clbit b).mp⟩
    exact covered.emission serial
  case refine_2 =>
    have ⟨seq, serial, _⟩ := Compiler.exists_serial_compiled built once ok
    exact (Compiler.covered_compiled built once ok).emission serial

-- Two qubits after a register without any, and a classical bit.
def spareRegisters : Circuit :=
  let c := ((Circuit.named "spare").pushQreg ⟨"none", 0⟩).2
  ((c.pushQreg ⟨"a", 2⟩).2.pushCreg ⟨"m", 1⟩).2

theorem built_spareRegisters : spareRegisters.Built := by
  have empty : ((Circuit.named "spare").pushQreg ⟨"none", 0⟩).2.Built := .addQreg (.named _) rfl
  have declared : ((Circuit.named "spare").pushQreg ⟨"none", 0⟩).2.addQreg "a" 2 = .ok _ := rfl
  exact .addCreg (empty.addQreg declared) rfl

def spare (i : Instruction) : Circuit :=
  { spareRegisters with dag := (spareRegisters.dag.append i).2 }

-- A compiled program declares no empty register. An infinite angle cannot be written.
theorem emission_of_built_spare :
    (∃ r, Compiler.chainCompiler.compile 0 (spare (.measure 1 0)) = .ok r ∧ Emission r.circuit ∧
      emit r.circuit = .ok ("OPENQASM 2.0;\ninclude \"qelib1.inc\";\nqreg q[3];\ncreg m[1];\n" ++
        "measure q[0] -> m[0];\n")) ∧
    Emission (spare (.gate (.u1 (1 / 0)) [1])) ∧
      emit (spare (.gate (.u1 (1 / 0)) [1])) = .error (.nonFiniteParameter "u1") := by
  have run : ((Compiler.chainCompiler.compile 0 (spare (.measure 1 0))).toOption.bind fun r =>
      (emit r.circuit).toOption) =
        some ("OPENQASM 2.0;\ninclude \"qelib1.inc\";\nqreg q[3];\ncreg m[1];\n" ++
          "measure q[0] -> m[0];\n") := by
    decide +kernel
  have ⟨r, compiled, emitted⟩ := Option.bind_eq_some_iff.mp run
  rw [toOption_eq_some_iff] at compiled emitted
  have once : ∀ x ∈ (spare (.measure 1 0)).dag.opNodes, x.2.clbits.Nodup := by decide +kernel
  have once' : ∀ x ∈ (spare (.gate (.u1 (1 / 0)) [1])).dag.opNodes, x.2.clbits.Nodup := by
    decide +kernel
  have ⟨_, outcomes⟩ := emission_of_built (.append _ built_spareRegisters) fun n i found =>
    once (n, i) (Dag.mem_opNodes_iff.mpr found)
  have ⟨unwritten, _⟩ := emission_of_built (.append _ built_spareRegisters) fun n i found =>
    once' (n, i) (Dag.mem_opNodes_iff.mpr found)
  exact ⟨⟨r, compiled, outcomes _ 0 r compiled, emitted⟩, unwritten, by decide +kernel⟩

end Qasm

end CircuitRouting
