import CircuitRouting.Proofs.Dag.Order

/-!
# Operations along a wire

Following a wire from its input to its output gives the operations on it. In a graph with a serial
order these are the operations of the order that touch the wire. For much of what is done along the
wires of qubits it is enough to know that they read a sequence.
-/

namespace CircuitRouting

namespace Wiring

variable {x : Wiring} {w : Wire} {fuel n m : Nat} {next : Option Nat} {rest : List Nat}

theorem isSome_of_mem_opsFrom (h : m ∈ x.opsFrom w fuel next) : (x.instruction? m).isSome := by
  induction fuel generalizing next
  case zero => simp [opsFrom] at h
  case succ fuel hi =>
    cases next
    case none => simp [opsFrom] at h
    case some n =>
      rw [opsFrom] at h
      split at h
      case isFalse => simp at h
      case isTrue op =>
        cases List.mem_cons.mp h
        case inl eq => exact eq ▸ op
        case inr h => exact hi h

theorem eq_of_opsFrom_eq_cons (h : x.opsFrom w fuel next = n :: rest) : next = some n := by
  cases fuel
  case zero => cases next <;> simp [opsFrom] at h
  case succ fuel =>
    cases next
    case none => simp [opsFrom] at h
    case some k =>
      rw [opsFrom] at h
      split at h
      case isFalse => contradiction
      case isTrue => exact congrArg some (List.cons.inj h).1

end Wiring

namespace Dag

variable {d : Dag} {path : Wire → List Nat} {seq : List (Nat × Instruction)} {n last fuel : Nat}
  {w : Wire} {e : WireEnds} {l : List Nat}

-- The nodes come one after the other on a wire.
def Follows (d : Dag) (w : Wire) (l : List Nat) : Prop :=
  ∀ a b, (a, b) ∈ hops l → d.successor? a w = some b

theorem Follows.tail (h : d.Follows w (n :: l)) : d.Follows w l :=
  fun a b hop => h a b (hops_subset_cons hop)

theorem Follows.opsFrom (h : d.Follows w (n :: (l ++ [last])))
    (ops : ∀ m ∈ l, (d.instruction? m).isSome) (none : d.instruction? last = none)
    (len : l.length ≤ fuel) :
    d.wiring.opsFrom w fuel (d.wiring.successor? n w) = l := by
  induction l generalizing n fuel
  case nil =>
    have next : d.wiring.successor? n w = some last :=
      (d.graph.wiring_successor? n w).trans (h n last (by simp))
    have stops : d.wiring.instruction? last = .none := none
    rw [next]
    cases fuel <;> simp [Wiring.opsFrom, stops]
  case cons m l hi =>
    cases fuel
    case zero => simp at len
    case succ fuel =>
      have next : d.wiring.successor? n w = some m :=
        (d.graph.wiring_successor? n w).trans (h n m (by simp))
      have op : (d.wiring.instruction? m).isSome := ops m (by simp)
      have rest := hi h.tail (fun k hk => ops k (by simp [hk])) (by simpa using len)
      rw [next, Wiring.opsFrom, if_pos op, rest]

theorem Follows.wireOps (h : d.Follows w (e.input :: (l ++ [e.output]))) (ends : d.ends? w = some e)
    (ops : ∀ m ∈ l, (d.instruction? m).isSome) (none : d.instruction? e.output = none)
    (nodup : l.Nodup) : d.wireOps w = l := by
  have inside : l ⊆ List.range d.graph.slots.size := fun m hm =>
    List.mem_range.mpr (d.graph.lt_size_of_isSome (isSome_of_instruction? (ops m hm)))
  have len : l.length ≤ d.graph.slots.size := by
    simpa using (nodup.subperm inside).length_le
  rw [Dag.wireOps, wireOpsBy, ends]
  exact h.opsFrom ops none len

theorem Laid.follows (h : d.Laid path) (he : e ∈ d.wires) : d.Follows e.wire (track path e) :=
  fun _ _ hop => (h.successor?_eq_some_iff he).mpr hop

theorem Laid.instruction?_output (h : d.Laid path) (he : e ∈ d.wires) :
    d.instruction? e.output = none := by
  rw [instruction?_eq, h.output e he]
  rfl

theorem Laid.wireOps (h : d.Laid path) (he : e ∈ d.wires) : d.wireOps e.wire = path e.wire :=
  (h.follows he).wireOps (h.ends?_eq he) (h.ops e he) (h.instruction?_output he) (h.nodup e he)

theorem wireOps_of_not_hasWire (h : ¬d.hasWire w) : d.wireOps w = [] := by
  have none : d.ends? w = none := by simpa [hasWire] using h
  rw [wireOps, wireOpsBy, none]

-- The next operation on a wire is the next one in the order of the wire.
theorem Serial.successor?_eq_some_iff {m : Nat} {i : Instruction} (h : d.Serial seq) (hn : (n, i) ∈ seq)
    (hw : w ∈ i.wires) (op : (d.instruction? m).isSome) :
    d.successor? n w = some m ↔ (n, m) ∈ hops (onWire w seq) := by
  have ⟨e, he, eq⟩ := hasWire_iff.mp (h.hasWire hn hw)
  subst eq
  rw [h.laid.successor?_eq_some_iff he]
  constructor
  case mp =>
    intro hop
    have op' : (d.instruction? n).isSome := by rw [(h.mem_iff n i).mp hn]; rfl
    exact mem_hops_of_ne_ends hop (h.laid.ne_input he op') (h.laid.ne_output he op)
  case mpr =>
    intro hop
    rw [Laid.hops_track]
    exact List.mem_append_left _ (hops_subset_cons hop)

theorem Serial.wireOps (h : d.Serial seq) (w : Wire) : d.wireOps w = onWire w seq := by
  by_cases hw : d.hasWire w
  case pos =>
    have ⟨e, he, eq⟩ := hasWire_iff.mp hw
    exact eq ▸ h.laid.wireOps he
  case neg =>
    rw [wireOps_of_not_hasWire hw, onWire_eq_nil fun x hx mem => hw (h.hasWire hx mem)]

-- What stands next to each other along a wire comes one after the other on it.
theorem successor?_of_mem_hops_opsFrom {m : Nat} {next : Option Nat}
    (hop : (n, m) ∈ hops (d.wiring.opsFrom w fuel next)) : d.successor? n w = some m := by
  induction fuel generalizing next
  case zero => cases next <;> simp [Wiring.opsFrom] at hop
  case succ fuel hi =>
    cases next
    case none => simp [Wiring.opsFrom] at hop
    case some k =>
      rw [Wiring.opsFrom] at hop
      split at hop
      case isFalse => simp at hop
      case isTrue =>
        cases rest : d.wiring.opsFrom w fuel (d.wiring.successor? k w)
        case nil => simp [rest] at hop
        case cons k' ks =>
          rw [rest, hops_cons_cons, List.mem_cons] at hop
          cases hop
          case inl eq =>
            cases eq
            have first : d.wiring.successor? n w = some m := Wiring.eq_of_opsFrom_eq_cons rest
            exact (d.graph.wiring_successor? n w).symm.trans first
          case inr hop => exact hi (rest ▸ hop)

theorem isSome_of_mem_wireOps (h : n ∈ d.wireOps w) : (d.instruction? n).isSome := by
  rw [wireOps, wireOpsBy] at h
  split at h
  case h_1 => simp at h
  case h_2 => exact Wiring.isSome_of_mem_opsFrom h

theorem successor?_of_mem_hops_wireOps {m : Nat} (hop : (n, m) ∈ hops (d.wireOps w)) :
    d.successor? n w = some m := by
  rw [wireOps, wireOpsBy] at hop
  split at hop
  case h_1 => simp at hop
  case h_2 => exact successor?_of_mem_hops_opsFrom hop

-- The instructions along a wire.
def wireInstructions (d : Dag) (w : Wire) : List Instruction :=
  (d.wireOps w).filterMap d.instruction?

-- A sequence of all operations that the wires of the qubits follow.
structure Reads (d : Dag) (seq : List (Nat × Instruction)) : Prop extends d.Lists seq where
  wireOps : ∀ q, d.wireOps (.qubit q) = onWire (.qubit q) seq

theorem Serial.reads (h : d.Serial seq) : d.Reads seq :=
  ⟨h.lists, fun q => h.wireOps (.qubit q)⟩

theorem wireInstructions_eq (d : Dag) (w : Wire) :
    d.wireInstructions w = (d.opsAt (d.wireOps w)).map Prod.snd := by
  simp [wireInstructions, opsAt, List.map_filterMap, Option.map_map, Function.comp_def]

theorem onWire_qubit (q : Nat) (seq : List (Nat × Instruction)) :
    onWire (.qubit q) seq = (seq.filter (q ∈ ·.2.qubits)).map Prod.fst := by
  simp [onWire, Instruction.wires]

namespace Reads

theorem opsAt_wireOps (h : d.Reads seq) (q : Nat) :
    d.opsAt (d.wireOps (.qubit q)) = seq.filter (q ∈ ·.2.qubits) := by
  rw [h.wireOps, onWire_qubit, opsAt, List.filterMap_map]
  refine (List.filterMap_congr fun x hx => ?_).trans List.filterMap_some
  simp [(h.mem_iff x.1 x.2).mp (List.mem_of_mem_filter hx)]

theorem wireInstructions_qubit (h : d.Reads seq) (q : Nat) :
    d.wireInstructions (.qubit q) = (seq.filter (q ∈ ·.2.qubits)).map Prod.snd := by
  rw [wireInstructions_eq, h.opsAt_wireOps]

end Reads

end Dag

end CircuitRouting
