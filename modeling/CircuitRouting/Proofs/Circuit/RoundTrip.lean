import CircuitRouting.Proofs.Circuit.Described
import CircuitRouting.Proofs.Circuit.Registers

/-!
# Descriptions that are read back

A description that is accepted is the description of its circuit, as long as no operation lists a
classical bit twice and only gates have parameters.
-/

namespace CircuitRouting

-- What is read as a gate has the gate's name and its parameters.
theorem Gate.of_ofName {g : Gate} {name : String} {params : List Float}
    (h : ofName name params = .ok g) : g.name = name ∧ g.params = params := by
  have found : ofName? name params = some g := by
    rw [ofName] at h
    split at h
    case h_1 g' found => exact Except.ok.inj h ▸ found
    case h_2 => split at h <;> contradiction
  unfold ofName? at found
  split at found
  case h_19 => contradiction
  all_goals
    cases found
    exact ⟨rfl, rfl⟩

namespace OpDescription

variable {op : OpDescription} {c : Circuit} {i : Instruction}

-- Only gates have parameters.
def Bare (op : OpDescription) : Prop :=
  op.gate = "measure" ∨ op.gate = "barrier" → op.params = []

theorem of_ofName (bare : op.Bare) (h : Action.ofName op.gate op.params = .ok i.action) :
    i.name = op.gate ∧ (i.gate?.map Gate.params).getD [] = op.params := by
  rw [Action.ofName] at h
  split at h
  case isTrue measure =>
    have action := Except.ok.inj h
    simp [Instruction.name, Instruction.gate?, ← action, Action.name, measure, bare (.inl measure)]
  case isFalse =>
    split at h
    case isTrue barrier =>
      have action := Except.ok.inj h
      simp [Instruction.name, Instruction.gate?, ← action, Action.name, barrier, bare (.inr barrier)]
    case isFalse =>
      have ⟨g, read, action⟩ := map_eq_ok_iff.mp h
      have ⟨name, params⟩ := Gate.of_ofName read
      simp [Instruction.name, Instruction.gate?, ← action, Action.name, name, params]

-- Positions are found again at the numbers they were looked up under.
theorem map_getElem?_of_located {rs : List Register} {bs : List BitRef} {ns : List Nat}
    (names : (rs.map Register.name).Nodup)
    (located : List.Forall₂ (fun b n => Register.locate rs b.register b.index = .ok n) bs ns) :
    ns.map (fun n => ((Register.allBits rs)[n]?).getD default) = bs := by
  refine map_eq_of_forall₂ located fun b _ n here => ?_
  rw [(Register.locate_eq_ok_iff names).mp here]
  rfl

theorem ofInstruction_of_resolve (built : c.Built) (bare : op.Bare) (h : op.resolve c = .ok i) :
    ofInstruction c i = op := by
  have ⟨qubits, quantum, h⟩ := bind_eq_ok_iff.mp h
  have ⟨clbits, classical, h⟩ := bind_eq_ok_iff.mp h
  have ⟨action, read, h⟩ := bind_eq_ok_iff.mp h
  cases h
  have ⟨name, params⟩ := of_ofName (i := ⟨action, qubits, clbits⟩) bare (mapError_eq_ok_iff.mp read)
  have qubits := map_getElem?_of_located built.nodup_qregs (mapM_eq_ok_iff.mp quantum)
  have clbits := map_getElem?_of_located built.nodup_cregs (mapM_eq_ok_iff.mp classical)
  simp only [ofInstruction, Circuit.qubits, Circuit.clbits, name, params, qubits, clbits]

end OpDescription

namespace Description

variable {d : Description} {c : Circuit}

theorem of_declareQreg {r : Register} {c' : Circuit}
    (h : (c.addQreg r.name r.size).map Prod.snd = .ok c') :
    c'.qregs = c.qregs ++ [r] ∧ (c'.name, c'.cregs) = (c.name, c.cregs) := by
  have ⟨⟨ids, _⟩, added, same⟩ := map_eq_ok_iff.mp h
  cases same
  cases Circuit.Built.of_addQreg added
  exact ⟨rfl, rfl⟩

theorem of_declareCreg {r : Register} {c' : Circuit}
    (h : (c.addCreg r.name r.size).map Prod.snd = .ok c') :
    c'.cregs = c.cregs ++ [r] ∧ (c'.name, c'.qregs) = (c.name, c.qregs) := by
  have ⟨⟨ids, _⟩, added, same⟩ := map_eq_ok_iff.mp h
  cases same
  cases Circuit.Built.of_addCreg added
  exact ⟨rfl, rfl⟩

theorem of_declare (h : d.declare = .ok c) :
    c.name = d.name ∧ c.qregs = d.qregs ∧ c.cregs = d.cregs := by
  have ⟨c₁, quantum, classical⟩ := bind_eq_ok_iff.mp h
  have ⟨qregs₁, rest₁⟩ := of_foldlM_concat Circuit.qregs (fun c => (c.name, c.cregs))
    (fun _ _ _ => of_declareQreg) quantum
  have ⟨cregs, rest⟩ := of_foldlM_concat Circuit.cregs (fun c => (c.name, c.qregs))
    (fun _ _ _ => of_declareCreg) classical
  have ⟨name₁, cregs₁⟩ := Prod.mk.inj rest₁
  have ⟨name, qregs⟩ := Prod.mk.inj rest
  exact ⟨name.trans name₁, qregs.trans qregs₁, by rw [cregs, cregs₁]; rfl⟩

theorem registers_of_toCircuit (h : d.toCircuit = .ok c) :
    c.name = d.name ∧ c.qregs = d.qregs ∧ c.cregs = d.cregs := by
  have ⟨c₀, declared, appended⟩ := bind_eq_ok_iff.mp h
  have ⟨name, qregs, cregs⟩ := of_declare declared
  have ⟨_, _, _, _, same⟩ := of_foldlM_append appended
  cases same
  exact ⟨name, qregs, cregs⟩

-- The operations come back from the graph in program order.
theorem resolved_instructions (h : d.toCircuit = .ok c) (once : ∀ op ∈ d.ops, op.clbits.Nodup) :
    List.Forall₂ (fun op i => op.resolve c = .ok i) d.ops c.dag.instructions := by
  have ⟨c₀, is, _, written, applied, resolved⟩ := of_toCircuit h
  have ⟨_, seq, snd, written⟩ :=
    written.of_applyAll ((forall_nodup_clbits_iff resolved).mp once) applied
  have listed : c.dag.instructions = is := by simpa [snd] using written.instructions_eq
  exact listed ▸ resolved

theorem ofCircuit_of_toCircuit (h : d.toCircuit = .ok c) (bare : ∀ op ∈ d.ops, op.Bare)
    (once : ∀ op ∈ d.ops, op.clbits.Nodup) : ofCircuit c = d := by
  have ⟨name, qregs, cregs⟩ := registers_of_toCircuit h
  have ops : c.dag.instructions.map (OpDescription.ofInstruction c) = d.ops :=
    map_eq_of_forall₂ (resolved_instructions h once) fun op hop _ resolved =>
      op.ofInstruction_of_resolve (built_toCircuit h) (bare op hop) resolved
  simp only [ofCircuit, name, qregs, cregs, ops]

-- Registers of several sizes, one of them empty, and operations that do not depend on each other.
def interleaved : Description where
  name := "interleaved"
  qregs := [⟨"a", 1⟩, ⟨"none", 0⟩, ⟨"b", 2⟩]
  cregs := [⟨"none", 0⟩, ⟨"m", 1⟩]
  ops := [⟨"u3", [0.1, 0.2, 0.3], [⟨"b", 1⟩], []⟩, ⟨"h", [], [⟨"a", 0⟩], []⟩,
    ⟨"cx", [], [⟨"b", 1⟩, ⟨"a", 0⟩], []⟩, ⟨"barrier", [], [⟨"b", 0⟩], []⟩,
    ⟨"measure", [], [⟨"a", 0⟩], [⟨"m", 0⟩]⟩]

theorem ofCircuit_of_toCircuit_interleaved :
    ∃ c, interleaved.toCircuit = .ok c ∧ ofCircuit c = interleaved := by
  have bare : ∀ op ∈ interleaved.ops, op.Bare := by
    simp [interleaved, OpDescription.Bare]
  have once : ∀ op ∈ interleaved.ops, op.clbits.Nodup := by
    simp [interleaved]
  have accepted : interleaved.toCircuit.isOk := by decide +kernel
  cases h : interleaved.toCircuit
  case error => simp [h, Except.isOk, Except.toBool] at accepted
  case ok c => exact ⟨c, rfl, ofCircuit_of_toCircuit h bare once⟩

end Description

end CircuitRouting
