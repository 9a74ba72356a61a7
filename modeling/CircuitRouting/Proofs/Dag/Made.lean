import CircuitRouting.Proofs.Circuit.Built
import CircuitRouting.Proofs.Dag.Exchange

/-!
# Graphs that any calls lead to

A call may fail, and an append that fails on the way leaves its node on the wires before that one. No
call puts an operation into a graph that is not valid there, and none makes an operation invalid.
-/

namespace CircuitRouting.Dag

-- What calls and changes of the level lead to; a call that fails counts with what it leaves behind.
inductive Made : Dag → Prop
  | empty : Made .empty
  | run {d : Dag} (edit : Edit) : Made d → Made (edit.run d)
  | setLevel {d : Dag} (level : Level) : Made d → Made { d with level }

variable {d d' : Dag} {n : Nat} {ns : List Nat} {i : Instruction} {is : List Instruction}

theorem made_edited (edits : List Edit) : (edited edits).Made :=
  List.foldlRecOn edits Edit.run .empty fun _ made edit _ => made.run edit

theorem Reachable.made (h : d.Reachable) : d.Made := by
  induction h
  case empty => exact .empty
  case addQubit q _ hi => exact hi.run (.addQubit q)
  case addClbit c _ hi => exact hi.run (.addClbit c)
  case setLevel level _ hi => exact hi.setLevel level
  case apply i _ _ eq hi => simpa [Edit.run, append_of_apply eq] using hi.run (.apply i)
  case removeOp n _ eq hi => simpa [Edit.run, eq] using hi.run (.removeOp n)
  case substitute is n _ _ eq hi => simpa [Edit.run, eq] using hi.run (.substitute n is)

section Tidy

variable (t : d.graph.Tidy)
include t

theorem tidy_removeOp (eq : d.removeOp n = .ok (i, d')) : d'.graph.Tidy := by
  have ⟨found, _, _, kept, _⟩ := removeOp_eq_ok eq
  exact kept.tidy (t.remove (isSome_of_instruction? (Option.isSome_of_mem found)))

theorem tidy_substitute (eq : d.substitute n is = .ok (ns, d')) : d'.graph.Tidy := by
  have ⟨_, ls, found, _, _, spliced⟩ := substitute_eq_ok eq
  have node := isSome_of_instruction? (Option.isSome_of_mem found)
  have grafted : Grafted (d.graph.remove n) [] ⟨d.graph.remove n, ls.map fun l => (l.wire, l.pred), []⟩ :=
    ⟨t.remove node, rfl, .nil, by simp, by simp, fun _ _ => rfl⟩
  obtain ⟨_, _, pushed⟩ := grafted.pushAll is
  cases spliced
  exact (wider_foldl_close ls).tidy pushed.tidy

end Tidy

-- All operations are valid.
def Valid (d : Dag) : Prop :=
  ∀ n i, d.instruction? n = some i → d.Fits i

namespace Valid

theorem addWire (h : d.Valid) (t : d.graph.Tidy) (w : Wire) : (d.addWire w).Valid := by
  intro n i found
  rw [instruction?_addWire t] at found
  exact (h n i found).congr fun v hv => hasWire_addWire.mpr (.inl hv)

-- The node that is left on some of its wires only is valid as well.
theorem append (h : d.Valid) (t : d.graph.Tidy) (j : Instruction) : (d.append j).2.Valid := by
  by_cases fits : d.Fits j
  case neg =>
    rw [append_of_not_fits fits]
    exact h
  case pos =>
    intro n i found
    refine Fits.congr (d := d) ?_ fun w => (hasWire_append j w).mpr
    rw [instruction?_append t fits] at found
    split at found
    case isTrue =>
      cases found
      exact fits
    case isFalse => exact h n i found

theorem removeOp (h : d.Valid) (eq : d.removeOp n = .ok (i, d')) : d'.Valid := by
  intro m j found
  have ex := exchanged_removeOp eq
  have old := (ex.of_instruction? found).resolve_left (by simp)
  exact (h m j old).congr fun w => (ex.replaced.alike.hasWire w).mpr

theorem substitute (h : d.Valid) (t : d.graph.Tidy) (eq : d.substitute n is = .ok (ns, d')) :
    d'.Valid := by
  intro m j found
  obtain ⟨_, _, checked⟩ := checked_of_substitute eq
  obtain ⟨_, fresh, _, snd, ex⟩ := exchanged_substitute t eq
  refine Fits.congr (d := d) ?_ fun w => (ex.replaced.alike.hasWire w).mpr
  cases ex.of_instruction? found
  case inl new => exact (checked j (snd ▸ List.mem_map_of_mem new)).1
  case inr old => exact h m j old

end Valid

-- Each call leaves the nodes in order and the operations valid.
theorem Edit.valid_run (t : d.graph.Tidy) (h : d.Valid) (edit : Edit) :
    (edit.run d).graph.Tidy ∧ (edit.run d).Valid := by
  cases edit
  case addQubit q => exact ⟨tidy_addWire t _, h.addWire t _⟩
  case addClbit c => exact ⟨tidy_addWire t _, h.addWire t _⟩
  case apply i => exact ⟨tidy_append t i, h.append t i⟩
  case removeOp n =>
    rw [Edit.run]
    split
    case h_1 eq => exact ⟨tidy_removeOp t eq, h.removeOp eq⟩
    case h_2 => exact ⟨t, h⟩
  case substitute n is =>
    rw [Edit.run]
    split
    case h_1 eq => exact ⟨tidy_substitute t eq, h.substitute t eq⟩
    case h_2 => exact ⟨t, h⟩

theorem Made.valid (h : d.Made) : d.graph.Tidy ∧ d.Valid := by
  induction h
  case empty =>
    refine ⟨.empty, fun n i found => ?_⟩
    simp [Dag.empty, Dag.instruction?, Graph.instruction?, Graph.node?] at found
  case run edit _ hi => exact edit.valid_run hi.1 hi.2
  case setLevel hi => exact ⟨hi.1, fun n i found => (hi.2 n i found).congr fun _ hw => hw⟩

theorem Made.fits (h : d.Made) (found : d.instruction? n = some i) : d.Fits i :=
  h.valid.2 n i found

theorem Made.fits_instructions (h : d.Made) : ∀ i ∈ d.instructions, d.Fits i := by
  intro i hi
  have ⟨⟨n, _⟩, hx, eq⟩ := List.mem_map.mp hi
  cases eq
  exact h.fits (mem_opsAt.mp hx).2

theorem Reachable.fits (h : d.Reachable) (found : d.instruction? n = some i) : d.Fits i :=
  h.made.fits found

namespace Edit

-- Appends a barrier over classical bits, which may be repeated.
def hold (clbits : List Nat) : Edit := .apply ⟨.barrier, [], clbits⟩

-- Takes out a node and the edges that lead from it, where it comes just after itself.
def cut (n : Nat) : List Edit := [.substitute n [.barrier []], .removeOp n]

end Edit

-- The append of node 6 fails at the bit 1, whose wire was cut, and the removals after it triple the
-- edges at the node on the bit 0. So there are as many as the node lists bits.
def halfway : List Edit :=
  [.addClbit 0, .addClbit 1, .hold [1], .hold [1, 1], .removeOp 4, .removeOp 5, .hold [1, 1]] ++
  Edit.cut 5 ++ [.hold [0], .hold [0, 0, 0], .hold [0, 1, 1], .removeOp 5, .removeOp 4, .hold [0],
    .hold [0, 0, 0], .removeOp 4, .removeOp 5]

-- The checks pass although an operation lists a classical bit twice.
theorem verify_halfway : (edited halfway).verify = .ok () := by
  decide +kernel

end CircuitRouting.Dag
