import CircuitRouting.Proofs.Circuit.Built
import CircuitRouting.Proofs.Dag.Sound
import Mathlib.Data.List.Duplicate

/-!
# Calls that are refused

A call is refused for its operands, or for the node that it names, before anything is changed. Past
these checks a wire could only fail to be extended or joined if it were broken, and the wires of a
graph with a serial order are not.
-/

namespace CircuitRouting.Dag

variable {d : Dag} {n q : Nat} {i j : Instruction} {is : List Instruction} {e : CircuitError}
  {seq : List (Nat × Instruction)} {edit : Edit} {edits : List Edit} {allowed : List Wire}

-- The grounds to refuse an instruction, with the error that names them.
inductive Refuses (d : Dag) (i : Instruction) : CircuitError → Prop
  | qubitCount {n : Nat} (arity : i.action.arity? = some n) (wrong : i.qubits.length ≠ n) :
    Refuses d i (.qubitCount i.name n i.qubits.length)
  | measureOperands (measure : i.isMeasure) (wrong : i.clbits.length ≠ 1) :
    Refuses d i (.invalidGraph (.measureOperands i.clbits.length))
  | qubitNotFound {q : Nat} (mem : q ∈ i.qubits) (absent : ¬d.hasWire (.qubit q)) :
    Refuses d i (.qubitNotFound q i.gateName?)
  | clbitNotFound {c : Nat} (mem : c ∈ i.clbits) (absent : ¬d.hasWire (.clbit c)) :
    Refuses d i (.clbitNotFound c i.gateName?)
  | duplicateQubit {q : Nat} (twice : List.Duplicate q i.qubits) :
    Refuses d i (.duplicateQubit q i.gateName?)

theorem duplicate_of_firstRepeated? {seen xs : List Nat} (h : firstRepeated? seen xs = some q) :
    q ∈ xs ∧ q ∈ seen ∨ List.Duplicate q xs := by
  induction xs generalizing seen
  case nil => contradiction
  case cons x xs hi =>
    rw [firstRepeated?] at h
    split at h
    case isTrue mem =>
      cases h
      exact .inl ⟨by simp, by simpa using mem⟩
    case isFalse =>
      rcases hi h with ⟨mem, seen⟩ | twice
      · rcases List.mem_cons.mp seen with rfl | seen
        · exact .inr mem.duplicate_cons_self
        · exact .inl ⟨by simp [mem], seen⟩
      · exact .inr (twice.duplicate_cons x)

theorem refuses_of_validate (h : d.validate i = .error e) : d.Refuses i e := by
  have count : ∀ n, i.action.arity? = some n → i.qubits.length ≠ n →
      d.Refuses i (.qubitCount i.name n i.qubits.length) := fun _ => .qubitCount
  have measure : i.isMeasure ∧ i.clbits.length ≠ 1 →
      d.Refuses i (.invalidGraph (.measureOperands i.clbits.length)) := fun h =>
    .measureOperands h.1 h.2
  have qubit : ∀ q, (i.qubits.find? fun q => !d.hasWire (.qubit q)) = some q →
      d.Refuses i (.qubitNotFound q i.gateName?) := fun q found =>
    .qubitNotFound (List.mem_of_find?_eq_some found) (by simpa using List.find?_some found)
  have clbit : ∀ c, (i.clbits.find? fun c => !d.hasWire (.clbit c)) = some c →
      d.Refuses i (.clbitNotFound c i.gateName?) := fun c found =>
    .clbitNotFound (List.mem_of_find?_eq_some found) (by simpa using List.find?_some found)
  have twice : ∀ q, firstRepeated? [] i.qubits = some q →
      d.Refuses i (.duplicateQubit q i.gateName?) := fun q found =>
    .duplicateQubit ((duplicate_of_firstRepeated? found).resolve_left (by simp))
  -- The first check that fails ends the validation with its error.
  simp only [validate] at h
  repeat' split at h
  all_goals cases h
  all_goals grind

theorem of_checkReplacement_eq_error (h : d.checkReplacement allowed i = .error e) :
    d.Refuses i e ∨ ∃ w ∈ i.wires, w ∉ allowed ∧ e = .invalidGraph (.foreignWire i.name w) := by
  rw [checkReplacement] at h
  rcases bind_eq_error_iff.mp h with invalid | ⟨_, _, foreign⟩
  · exact .inl (refuses_of_validate invalid)
  · split at foreign
    case h_1 w found =>
      cases foreign
      exact .inr ⟨w, List.mem_of_find?_eq_some found, by simpa using List.find?_some found, rfl⟩
    case h_2 => contradiction

namespace Edit

-- What a call returns, without the nodes and the instruction in it.
def outcome (d : Dag) : Edit → Except CircuitError Unit
  | addQubit _ | addClbit _ => .ok ()
  | apply i => (d.append i).1.map fun _ => ()
  | removeOp n => (d.removeOp n).map fun _ => ()
  | substitute n is => (d.substitute n is).map fun _ => ()

-- What a call asks of the graph.
def Allowed (d : Dag) : Edit → Prop
  | addQubit _ | addClbit _ => True
  | apply i => d.Fits i
  | removeOp n => ∃ i, d.instruction? n = some i
  | substitute n is =>
    ∃ i, d.instruction? n = some i ∧ ∀ j ∈ is, d.Fits j ∧ ∀ w ∈ j.wires, w ∈ i.wires

-- The grounds to refuse a call.
inductive Refused (d : Dag) : Edit → CircuitError → Prop
  | operands {i : Instruction} {e : CircuitError} : d.Refuses i e → Refused d (.apply i) e
  | noNode {n : Nat} : d.node? n = none → Refused d (.removeOp n) .invalidNode
  | notAnOperation {n : Nat} {x : Node} : d.node? n = some x → d.instruction? n = none →
    Refused d (.removeOp n) (.invalidGraph .notAnOperation)
  | noOperation {n : Nat} {is : List Instruction} : d.instruction? n = none →
    Refused d (.substitute n is) .invalidNode
  | replacement {n : Nat} {i j : Instruction} {is : List Instruction} {e : CircuitError} :
    d.instruction? n = some i → j ∈ is → d.Refuses j e → Refused d (.substitute n is) e
  | foreignWire {n : Nat} {i j : Instruction} {is : List Instruction} {w : Wire} :
    d.instruction? n = some i → j ∈ is → w ∈ j.wires → w ∉ i.wires →
    Refused d (.substitute n is) (.invalidGraph (.foreignWire j.name w))

-- None of the grounds is a broken wire.
theorem Refused.unbroken (h : edit.Refused d e) :
    (∀ w, e ≠ .invalidGraph (.missingOutputEdge w)) ∧
      ∀ w n, e ≠ .invalidGraph (.brokenAround w n) := by
  cases h
  case operands grounds => cases grounds <;> simp
  case replacement grounds => cases grounds <;> simp
  all_goals simp

end Edit

namespace Serial

variable (h : d.Serial seq)
include h

theorem isOk_append_iff (once : i.clbits.Nodup) :
    (∃ n, (d.append i).1 = .ok n) ↔ d.Fits i := by
  constructor
  case mp =>
    rintro ⟨n, eq⟩
    exact fits_of_append (Prod.ext eq rfl)
  case mpr =>
    intro fits
    have ⟨d', eq, _⟩ := h.append ⟨fits, once⟩
    exact ⟨d.graph.nextNumber, by rw [eq]⟩

theorem isOk_removeOp_iff : (∃ x, d.removeOp n = .ok x) ↔ ∃ i, d.instruction? n = some i := by
  constructor
  case mp =>
    rintro ⟨⟨i, d'⟩, eq⟩
    exact ⟨i, instruction?_of_removeOp eq⟩
  case mpr =>
    rintro ⟨i, found⟩
    have ⟨l, r, split⟩ := List.append_of_mem ((h.mem_iff n i).mpr found)
    subst split
    have ⟨d', eq, _⟩ := h.removeOp
    exact ⟨_, eq⟩

theorem isOk_substitute_iff (once : ∀ j ∈ is, j.clbits.Nodup) :
    (∃ x, d.substitute n is = .ok x) ↔
      ∃ i, d.instruction? n = some i ∧ ∀ j ∈ is, d.Fits j ∧ ∀ w ∈ j.wires, w ∈ i.wires := by
  constructor
  case mp =>
    rintro ⟨⟨ns, d'⟩, eq⟩
    exact checked_of_substitute eq
  case mpr =>
    rintro ⟨i, found, checked⟩
    have ⟨l, r, split⟩ := List.append_of_mem ((h.mem_iff n i).mpr found)
    subst split
    have ⟨fresh, d', eq, _⟩ := h.substitute is (fun j hj => ⟨(checked j hj).1, once j hj⟩)
      fun j hj => (checked j hj).2
    exact ⟨_, eq⟩

theorem outcome_eq_ok_iff (once : edit.Once) : edit.outcome d = .ok () ↔ edit.Allowed d := by
  cases edit
  case addQubit q => exact iff_of_true rfl trivial
  case addClbit c => exact iff_of_true rfl trivial
  case apply i =>
    simp only [Edit.outcome, map_eq_ok_iff, and_true]
    exact h.isOk_append_iff (once i (by simp [Edit.instructions]))
  case removeOp n =>
    simp only [Edit.outcome, map_eq_ok_iff, and_true]
    exact h.isOk_removeOp_iff
  case substitute n is =>
    simp only [Edit.outcome, map_eq_ok_iff, and_true]
    exact h.isOk_substitute_iff once

-- A call that is not allowed is refused on one of the grounds, and changes nothing.
theorem refused_of_outcome (once : edit.Once) (eq : edit.outcome d = .error e) :
    edit.run d = d ∧ edit.Refused d e := by
  have blocked : ¬edit.Allowed d := fun allowed => by
    rw [(h.outcome_eq_ok_iff once).mpr allowed] at eq
    contradiction
  cases edit
  case addQubit q => exact absurd trivial blocked
  case addClbit c => exact absurd trivial blocked
  case apply i =>
    refine ⟨append_of_not_fits blocked, .operands (refuses_of_validate ?_)⟩
    cases valid : d.validate i
    case ok => exact absurd (validate_eq_ok_iff.mp valid) blocked
    case error e' =>
      have failed := map_eq_error_iff.mp eq
      simp only [Dag.append, valid, Except.error.injEq] at failed
      exact congrArg Except.error failed
  case removeOp n =>
    have failed := map_eq_error_iff.mp eq
    refine ⟨by rw [Edit.run, failed], ?_⟩
    rw [Dag.removeOp] at failed
    split at failed
    case h_1 none =>
      cases failed
      exact .noNode none
    case h_2 i node => exact absurd ⟨i, instruction?_eq_some_iff.mpr node⟩ blocked
    case h_3 x other node =>
      cases failed
      exact .notAnOperation node
        (Option.eq_none_iff_forall_ne_some.mpr fun i found => blocked ⟨i, found⟩)
  case substitute n is =>
    have failed := map_eq_error_iff.mp eq
    refine ⟨by rw [Edit.run, failed], ?_⟩
    rw [Dag.substitute] at failed
    split at failed
    case h_1 none =>
      cases failed
      exact .noOperation none
    case h_2 i found =>
      rcases bind_eq_error_iff.mp failed with bad | ⟨_, good, _⟩
      · obtain ⟨j, hj, bad⟩ := of_forM_eq_error bad
        rcases of_checkReplacement_eq_error bad with operands | ⟨w, hw, foreign, rfl⟩
        · exact .replacement found hj operands
        · exact .foreignWire found hj hw foreign
      · have checked := fun j hj => checkReplacement_eq_ok (forM_eq_ok_iff.mp good j hj)
        exact absurd ⟨i, found, checked⟩ blocked

end Serial

theorem edited_all_or_nothing (once : ∀ edit ∈ edits, edit.Once) (further : edit.Once) :
    (edit.outcome (edited edits) = .ok () ↔ edit.Allowed (edited edits)) ∧
      (∀ e, edit.outcome (edited edits) = .error e →
        edit.run (edited edits) = edited edits ∧ edit.Refused (edited edits) e) ∧
      ∀ w n, edit.outcome (edited edits) ≠ .error (.invalidGraph (.missingOutputEdge w)) ∧
        edit.outcome (edited edits) ≠ .error (.invalidGraph (.brokenAround w n)) := by
  have ⟨seq, h⟩ := exists_serial_edited once
  refine ⟨h.outcome_eq_ok_iff further, fun e => h.refused_of_outcome further, fun w n => ⟨?_, ?_⟩⟩
  case refine_1 => exact fun eq => (h.refused_of_outcome further eq).2.unbroken.1 w rfl
  case refine_2 => exact fun eq => (h.refused_of_outcome further eq).2.unbroken.2 w n rfl

-- The second of two replacements leaves the wire of the node that they replace.
def straying : Edit :=
  .substitute 6 [.gate .h [0], .cx 0 1]

theorem edited_all_or_nothing_straying :
    (∀ edit ∈ braid, edit.Once) ∧ straying.Once ∧ ¬straying.Allowed (edited braid) ∧
      straying.outcome (edited braid) = .error (.invalidGraph (.foreignWire "cx" (.qubit 1))) ∧
      straying.run (edited braid) = edited braid := by
  have failed : straying.outcome (edited braid) =
      .error (.invalidGraph (.foreignWire "cx" (.qubit 1))) := by decide +kernel
  have once : ∀ edit ∈ braid, edit.Once := by decide
  have further : straying.Once := by decide
  have ⟨allowed, refused, _⟩ := edited_all_or_nothing once further
  refine ⟨once, further, fun h => ?_, failed, (refused _ failed).1⟩
  rw [allowed.mpr h] at failed
  contradiction

end CircuitRouting.Dag
