import CircuitRouting.Proofs.Dag.Edited

/-!
# Program order

Calls that add wires and append operations, in any interleaving, leave a graph whose topological order
lists exactly the operations that were accepted, in the order of the calls.
-/

namespace CircuitRouting.Dag

variable {d : Dag} {edit : Edit} {edits : List Edit} {seq : List (Nat × Instruction)}

namespace Edit

-- The call adds a wire or appends an operation.
def Grows : Edit → Prop
  | addQubit _ | addClbit _ | apply _ => True
  | removeOp _ | substitute _ _ => False

instance : DecidablePred Grows
  | addQubit _ | addClbit _ | apply _ => inferInstanceAs (Decidable True)
  | removeOp _ | substitute _ _ => inferInstanceAs (Decidable False)

-- The operation that a call appends, with the node that it returns; none if the call fails.
def accepted (d : Dag) : Edit → List (Nat × Instruction)
  | apply i =>
    match d.apply i with
    | .ok (n, _) => [(n, i)]
    | .error _ => []
  | addQubit _ | addClbit _ | removeOp _ | substitute _ _ => []

end Edit

-- The operations that calls append one after the other.
def accepted (d : Dag) : List Edit → List (Nat × Instruction)
  | [] => []
  | edit :: edits => edit.accepted d ++ accepted (edit.run d) edits

namespace Written

-- One call appends what it accepts.
theorem run (h : d.Written seq) (grows : edit.Grows) (once : edit.Once) :
    (edit.run d).Written (seq ++ edit.accepted d) := by
  cases edit
  case addQubit q => simpa [Edit.run, Edit.accepted, addQubit] using h.addWire (.qubit q)
  case addClbit c => simpa [Edit.run, Edit.accepted, addClbit] using h.addWire (.clbit c)
  case removeOp => exact grows.elim
  case substitute => exact grows.elim
  case apply i =>
    cases valid : d.validate i
    case error e =>
      have refused : d.append i = (.error e, d) := by simp [Dag.append, valid]
      simpa [Edit.run, Edit.accepted, Dag.apply, refused] using h
    case ok =>
      have fits : d.FitsOnce i := ⟨validate_eq_ok_iff.mp valid, once i (by simp [Edit.instructions])⟩
      obtain ⟨d', eq, _, written⟩ := h.append fits
      simpa [Edit.run, Edit.accepted, Dag.apply, eq] using written

theorem foldl_run (h : d.Written seq) (grow : ∀ edit ∈ edits, edit.Grows)
    (once : ∀ edit ∈ edits, edit.Once) :
    (edits.foldl Edit.run d).Written (seq ++ d.accepted edits) := by
  induction edits generalizing d seq
  case nil => simpa [accepted] using h
  case cons edit edits hi =>
    have ⟨grows, grow⟩ := List.forall_mem_cons.mp grow
    have ⟨here, once⟩ := List.forall_mem_cons.mp once
    simpa [accepted] using hi (h.run grows here) grow once

end Written

theorem topologicalOps_of_growth (grow : ∀ edit ∈ edits, edit.Grows)
    (once : ∀ edit ∈ edits, edit.Once) :
    (edited edits).topologicalOps = Dag.empty.accepted edits := by
  have written : (edited edits).Written ([] ++ Dag.empty.accepted edits) :=
    (Written.empty .logical).foldl_run grow once
  exact written.topologicalOps_eq

-- The second qubit comes after an operation on the first, and the classical bit after both are joined.
-- A gate on a missing qubit and one on the same qubit twice are refused.
def interleaved : List Edit :=
  [.addQubit 4, .apply (.gate .h [4]), .apply (.cx 4 2), .addQubit 2, .addQubit 4, .apply (.cx 2 4),
    .apply (.cx 2 2), .addClbit 0, .apply (.gate .x [4]), .apply (.measure 2 0)]

theorem topologicalOps_of_growth_interleaved :
    (∀ edit ∈ interleaved, edit.Grows) ∧ (∀ edit ∈ interleaved, edit.Once) ∧
      (edited interleaved).topologicalOps = Dag.empty.accepted interleaved ∧
      Dag.empty.accepted interleaved =
        [(2, .gate .h [4]), (5, .cx 2 4), (8, .gate .x [4]), (9, .measure 2 0)] :=
  ⟨by decide, by decide, topologicalOps_of_growth (by decide) (by decide), by rfl⟩

end CircuitRouting.Dag
