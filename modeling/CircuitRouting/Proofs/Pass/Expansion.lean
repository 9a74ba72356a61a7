import CircuitRouting.Pass.Expansion
import CircuitRouting.Proofs.Dag.Rewritten
import CircuitRouting.Proofs.Trace

/-!
# What expansion writes

Expansion cannot fail on a graph with a serial order. It writes, in topological order, what each
instruction becomes, on the wires of the instruction.
-/

namespace CircuitRouting

namespace Gate

theorem arity_native (basis : Basis) (g : Gate) : (g.native basis).arity = g.arity := by
  cases g <;> simp only [native] <;> (try split) <;> rfl

theorem arity_rotation (g : Gate) : g.rotation.arity = g.arity := by
  cases g <;> rfl

theorem arity_hadamard (basis : Basis) : (hadamard basis).arity = 1 :=
  arity_native basis _

end Gate

namespace Dag

variable {d d' : Dag} {basis : Basis} {i j : Instruction} {g : Gate} {w : Wire}

theorem mem_qubits {q : Nat} : q ∈ d.qubits ↔ d.hasWire (.qubit q) := by
  simp only [qubits, natLt_separating.mem_sortUnique, List.mem_filterMap, hasWire_iff]
  constructor
  case mp =>
    rintro ⟨e, he, eq⟩
    split at eq
    case h_1 hw =>
      cases eq
      exact ⟨e, he, hw⟩
    case h_2 => contradiction
  case mpr =>
    rintro ⟨e, he, eq⟩
    exact ⟨e, he, by simp [eq]⟩

theorem mem_clbits {c : Nat} : c ∈ d.clbits ↔ d.hasWire (.clbit c) := by
  simp only [clbits, natLt_separating.mem_sortUnique, List.mem_filterMap, hasWire_iff]
  constructor
  case mp =>
    rintro ⟨e, he, eq⟩
    split at eq
    case h_1 hw =>
      cases eq
      exact ⟨e, he, hw⟩
    case h_2 => contradiction
  case mpr =>
    rintro ⟨e, he, eq⟩
    exact ⟨e, he, by simp [eq]⟩

theorem hasWire_ofWires {qubits clbits : List Nat} {level : Level} :
    (ofWires qubits clbits level).hasWire w ↔
      w ∈ qubits.map .qubit ∨ w ∈ clbits.map .clbit := by
  rw [ofWires]
  refine (hasWire_foldl_addWire .clbit clbits).trans (or_congr_left ?_)
  refine (hasWire_foldl_addWire .qubit qubits).trans ?_
  simp [hasWire, ends?]

theorem level_ofWires {qubits clbits : List Nat} {level : Level} :
    (ofWires qubits clbits level).level = level :=
  (level_foldl_addWire .clbit clbits).trans (level_foldl_addWire .qubit qubits)

-- The wires of a graph that is built anew are those of the old one.
theorem hasWire_ofWires_self (level : Level) :
    (ofWires d.qubits d.clbits level).hasWire w ↔ d.hasWire w := by
  rw [hasWire_ofWires]
  cases w
  case qubit q => simp [mem_qubits]
  case clbit c => simp [mem_clbits]

theorem fitsOnce_gate {qs : List Nat} (arity : qs.length = g.arity) (nodup : qs.Nodup)
    (exist : ∀ q ∈ qs, d.hasWire (.qubit q)) : d.FitsOnce (.gate g qs) where
  arity n h := by
    cases h
    exact arity
  measure h := by simp [Instruction.gate, Instruction.isMeasure] at h
  qubits := exist
  clbits := by simp [Instruction.gate]
  nodup := nodup
  once := .nil

end Dag

namespace Instruction

variable {basis : Basis} {g : Gate} {a b : Nat} {i j : Instruction}

theorem of_mem_unroll_single (arity : g.arity = 1) (h : j ∈ unroll basis g [a]) :
    ∃ g', j = .gate g' [a] ∧ g'.arity = 1 := by
  have rotated : (g.rotation.native basis).arity = 1 := by
    rw [Gate.arity_native, Gate.arity_rotation, arity]
  cases g <;> simp [Gate.arity] at arity
  case id =>
    simp only [unroll] at h
    split at h
    case isTrue => exact ⟨.id, List.mem_singleton.mp h, rfl⟩
    case isFalse => simp at h
  all_goals exact ⟨_, List.mem_singleton.mp h, rotated⟩

theorem of_mem_unroll_pair (arity : g.arity = 2) (h : j ∈ unroll basis g [a, b]) :
    (∃ g', j = .gate g' [b] ∧ g'.arity = 1) ∨ j = .cx a b ∨ j = .cx b a := by
  cases g <;> simp [Gate.arity] at arity
  case cx => exact .inr (.inl (List.mem_singleton.mp h))
  case cz =>
    simp only [unroll, List.mem_cons, List.not_mem_nil, or_false] at h
    rcases h with h | h | h
    · exact .inl ⟨_, h, Gate.arity_hadamard basis⟩
    · exact .inr (.inl h)
    · exact .inl ⟨_, h, Gate.arity_hadamard basis⟩
  case swap =>
    simp only [unroll, swapAsCx, List.mem_cons, List.not_mem_nil, or_false] at h
    rcases h with h | h | h
    · exact .inr (.inl h)
    · exact .inr (.inr h)
    · exact .inr (.inl h)

end Instruction

namespace Dag

variable {d d' : Dag} {basis : Basis} {i j : Instruction} {g : Gate} {w : Wire}

-- The gates that stand for a gate are valid.
theorem fitsOnce_unroll (fits : d.Fits i) (gate : i.action = .gate g)
    (h : j ∈ Instruction.unroll basis g i.qubits) : d.FitsOnce j := by
  have len : i.qubits.length = g.arity := fits.arity _ (by rw [gate]; rfl)
  have nodup := fits.nodup
  have exist := fits.qubits
  have arity : g.arity = 1 ∨ g.arity = 2 := by cases g <;> simp [Gate.arity]
  cases arity
  case inl one =>
    have ⟨a, eq⟩ := List.length_eq_one_iff.mp (len.trans one)
    rw [eq] at h exist
    have ⟨g', eq, arity⟩ := Instruction.of_mem_unroll_single one h
    exact eq ▸ fitsOnce_gate (by simp [arity]) (by simp) exist
  case inr two =>
    have ⟨a, b, eq⟩ := List.length_eq_two.mp (len.trans two)
    rw [eq] at h nodup exist
    have ne : a ≠ b := by simpa using nodup
    have ha := exist a (by simp)
    have hb := exist b (by simp)
    rcases Instruction.of_mem_unroll_pair two h with ⟨g', eq, arity⟩ | eq | eq
    · exact eq ▸ fitsOnce_gate (by simp [arity]) (by simp) (by simpa using hb)
    · exact eq ▸ fitsOnce_gate rfl (by simpa using ne) (by simp [ha, hb])
    · exact eq ▸ fitsOnce_gate rfl (by simpa using ne.symm) (by simp [ha, hb])

-- An instruction is kept as it is, or becomes valid gates without classical bits.
theorem expand_cases (fits : d.Fits i) (h : j ∈ i.expand basis) : j = i ∨ d.FitsOnce j := by
  rw [Instruction.expand] at h
  split at h
  case h_1 g gate =>
    split at h
    case isTrue => exact .inl (List.mem_singleton.mp h)
    case isFalse => exact .inr (fitsOnce_unroll fits gate h)
  case h_2 => exact .inl (List.mem_singleton.mp h)

theorem fits_expand (fits : d.Fits i) (h : j ∈ i.expand basis) : d.Fits j :=
  (expand_cases fits h).elim (fun eq => eq ▸ fits) FitsOnce.toFits

theorem fitsOnce_expand (fits : d.FitsOnce i) (h : j ∈ i.expand basis) : d.FitsOnce j :=
  (expand_cases fits.toFits h).elim (fun eq => eq ▸ fits) id

theorem exists_expand (fits : ∀ i ∈ d.instructions, d.Fits i) (basis : Basis) :
    ∃ d', d.expand basis = .ok d' := by
  have bare := (Written.ofWires d.qubits d.clbits d.level).serial.laid.traceable
  refine bare.applyAll fun j hj => ?_
  have ⟨i, hi, hj⟩ := List.mem_flatMap.mp hj
  exact (fits_expand (fits i hi) hj).congr fun w => (hasWire_ofWires_self d.level).mpr

theorem wires_of_expand (eq : d.expand basis = .ok d') :
    (∀ w, d'.hasWire w ↔ d.hasWire w) ∧ d'.level = d.level := by
  have alike := alike_of_applyAll eq
  refine ⟨fun w => ?_, alike.level.trans level_ofWires⟩
  exact (alike.hasWire w).trans (hasWire_ofWires_self d.level)

-- Expansion writes what each instruction becomes.
theorem expand_of_fits (fits : ∀ i ∈ d.instructions, d.FitsOnce i) (basis : Basis) :
    ∃ d' new, d.expand basis = .ok d' ∧ d'.Written new ∧
      new.map Prod.snd = d.instructions.flatMap (·.expand basis) ∧
      (∀ w, d'.hasWire w ↔ d.hasWire w) ∧ d'.level = d.level := by
  have ⟨d', eq⟩ := exists_expand (fun i hi => (fits i hi).toFits) basis
  have once : ∀ j ∈ d.instructions.flatMap (·.expand basis), j.clbits.Nodup := by
    intro j hj
    have ⟨i, hi, hj⟩ := List.mem_flatMap.mp hj
    exact (fitsOnce_expand (fits i hi) hj).once
  have bare := Written.ofWires d.qubits d.clbits d.level
  have ⟨_, new, snd, written⟩ := bare.of_applyAll once eq
  exact ⟨d', new, eq, by simpa using written, snd, wires_of_expand eq⟩

theorem Serial.expand {seq : List (Nat × Instruction)} (h : d.Serial seq) (basis : Basis) :
    ∃ d' new, d.expand basis = .ok d' ∧ d'.Written new ∧
      new.map Prod.snd = d.instructions.flatMap (·.expand basis) ∧
      (∀ w, d'.hasWire w ↔ d.hasWire w) ∧ d'.level = d.level :=
  expand_of_fits (List.forall_mem_map.mpr h.topologicalOps.fits) basis

end Dag

theorem Pass.run_expansion {w : Workspace} {d : Dag}
    (eq : w.dag.expand w.properties.targetBasis = .ok d) :
    expansion.run w = (.ok (), { w with dag := d }) := by
  simp only [expansion, eq]
  rfl

end CircuitRouting
