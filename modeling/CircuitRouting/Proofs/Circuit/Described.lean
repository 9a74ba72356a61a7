import CircuitRouting.Proofs.Dag.Rewritten

/-!
# Circuits that are described

The operations of an accepted description come in their order in the circuit. An operation that lists
a classical bit twice is accepted as well, but it comes just after itself, and is missing from the
topological order. So the circuit is sound exactly if no operation of the description does this.
-/

namespace CircuitRouting

namespace Register

variable {rs : List Register} {name name' : String} {index index' offset k : Nat}

theorem le_of_locateFrom (h : locateFrom name index offset rs = .ok k) : offset ≤ k := by
  induction rs generalizing offset
  case nil => contradiction
  case cons r rs hi =>
    rw [locateFrom] at h
    split at h
    case isFalse => exact Nat.le_trans (Nat.le_add_right ..) (hi h)
    case isTrue =>
      split at h
      case isFalse => contradiction
      case isTrue =>
        cases h
        exact Nat.le_add_right ..

-- The register that starts here holds its own positions only.
theorem lt_of_locateFrom {r : Register} (h : locateFrom r.name index offset (r :: rs) = .ok k) :
    k = offset + index ∧ index < r.size := by
  rw [locateFrom, if_pos rfl] at h
  split at h
  case isFalse => contradiction
  case isTrue lt =>
    cases h
    exact ⟨rfl, lt⟩

theorem locateFrom_injective (h : locateFrom name index offset rs = .ok k)
    (h' : locateFrom name' index' offset rs = .ok k) : name = name' ∧ index = index' := by
  induction rs generalizing offset
  case nil => contradiction
  case cons r rs hi =>
    by_cases here : r.name = name
    case pos =>
      have ⟨eq, lt⟩ := lt_of_locateFrom (here ▸ h)
      by_cases here' : r.name = name'
      case pos =>
        have ⟨eq', _⟩ := lt_of_locateFrom (here' ▸ h')
        exact ⟨here.symm.trans here', by omega⟩
      case neg =>
        rw [locateFrom, if_neg here'] at h'
        have := le_of_locateFrom h'
        omega
    case neg =>
      rw [locateFrom, if_neg here] at h
      by_cases here' : r.name = name'
      case pos =>
        have ⟨eq, lt⟩ := lt_of_locateFrom (here' ▸ h')
        have := le_of_locateFrom h
        omega
      case neg =>
        rw [locateFrom, if_neg here'] at h'
        exact hi h h'

end Register

namespace OpDescription

variable {op : OpDescription} {c : Circuit} {i : Instruction}

-- Different positions of classical registers have different numbers.
theorem nodup_clbits_iff (h : op.resolve c = .ok i) : i.clbits.Nodup ↔ op.clbits.Nodup := by
  have ⟨qubits, _, h⟩ := bind_eq_ok_iff.mp h
  have ⟨clbits, located, h⟩ := bind_eq_ok_iff.mp h
  have ⟨action, _, h⟩ := bind_eq_ok_iff.mp h
  cases h
  have located := mapM_eq_ok_iff.mp located
  constructor
  case mp =>
    refine nodup_of_forall₂ located.flip fun k k' b eq eq' => ?_
    exact Except.ok.inj (eq.symm.trans eq')
  case mpr =>
    refine nodup_of_forall₂ located fun b b' k eq eq' => ?_
    have ⟨register, index⟩ := Register.locateFrom_injective eq eq'
    cases b
    cases b'
    cases register
    cases index
    rfl

end OpDescription

namespace Description

variable {d : Description} {c c' : Circuit} {ops : List OpDescription}

-- The registers alone, and no operations yet.
theorem written_declare (h : d.declare = .ok c) : c.dag.Reachable ∧ c.dag.Written [] := by
  have ⟨c₁, qregs, cregs⟩ := bind_eq_ok_iff.mp h
  let Bare (c : Circuit) : Prop := c.dag.Reachable ∧ c.dag.Written []
  have bare₁ : Bare c₁ := by
    refine of_foldlM_eq_ok Bare (fun c r c' h step => ?_) ⟨.empty, .empty .logical⟩ qregs
    have ⟨⟨ids, c''⟩, added, same⟩ := map_eq_ok_iff.mp step
    cases same
    cases Circuit.Built.of_addQreg added
    exact ⟨h.1.foldl_addQubit _, h.2.foldl_addWire .qubit _⟩
  refine of_foldlM_eq_ok Bare (fun c r c' h step => ?_) bare₁ cregs
  have ⟨⟨ids, c''⟩, added, same⟩ := map_eq_ok_iff.mp step
  cases same
  cases Circuit.Built.of_addCreg added
  exact ⟨h.1.foldl_addClbit _, h.2.foldl_addWire .clbit _⟩

-- Operands are looked up in the registers, which appending does not change.
theorem of_foldlM_append (h : ops.foldlM append c = .ok c') :
    ∃ is d, List.Forall₂ (fun op i => op.resolve c = .ok i) ops is ∧ c.dag.applyAll is = .ok d ∧
      c' = { c with dag := d } := by
  induction ops generalizing c
  case nil =>
    cases h
    exact ⟨[], _, .nil, rfl, rfl⟩
  case cons op ops hi =>
    rw [List.foldlM_cons] at h
    have ⟨c₁, step, rest⟩ := bind_eq_ok_iff.mp h
    have ⟨i, resolved, step⟩ := bind_eq_ok_iff.mp step
    have ⟨⟨n, c₂⟩, applied, same⟩ := map_eq_ok_iff.mp step
    have ⟨⟨m, d₁⟩, extended, same'⟩ := map_eq_ok_iff.mp applied
    cases same
    cases same'
    have ⟨is, d, resolvedAll, appliedAll, eq⟩ := hi rest
    refine ⟨i :: is, d, .cons resolved resolvedAll, ?_, eq⟩
    rw [Dag.applyAll, List.foldlM_cons, extended]
    exact appliedAll

theorem forall_nodup_clbits_iff {ops : List OpDescription} {is : List Instruction}
    (resolved : List.Forall₂ (fun op i => op.resolve c = .ok i) ops is) :
    (∀ op ∈ ops, op.clbits.Nodup) ↔ ∀ i ∈ is, i.clbits.Nodup := by
  constructor
  case mp =>
    intro once i hi
    have ⟨op, hop, eq⟩ := exists_left_of_forall₂ resolved hi
    exact (op.nodup_clbits_iff eq).mpr (once op hop)
  case mpr =>
    intro once op hop
    have ⟨i, hi, eq⟩ := exists_left_of_forall₂ resolved.flip hop
    exact (op.nodup_clbits_iff eq).mp (once i hi)

-- What a description that is accepted has gone through.
theorem of_toCircuit (h : d.toCircuit = .ok c) :
    ∃ (c₀ : Circuit) (is : List Instruction), c₀.dag.Reachable ∧ c₀.dag.Written [] ∧
      c₀.dag.applyAll is = .ok c.dag ∧
      List.Forall₂ (fun op i => op.resolve c = .ok i) d.ops is := by
  have ⟨c₀, declared, appended⟩ := bind_eq_ok_iff.mp h
  have ⟨reachable, written⟩ := written_declare declared
  have ⟨is, _, resolved, applied, same⟩ := of_foldlM_append appended
  cases same
  exact ⟨c₀, is, reachable, written, applied, resolved⟩

theorem toCircuit_sound_iff (h : d.toCircuit = .ok c) :
    (c.dag.verify = .ok () ↔ ∀ op ∈ d.ops, op.clbits.Nodup) ∧
    (List.Forall₂ (fun op i => op.resolve c = .ok i) d.ops c.dag.instructions ↔
      ∀ op ∈ d.ops, op.clbits.Nodup) := by
  have ⟨c₀, is, reachable, written, applied, resolved⟩ := of_toCircuit h
  rw [written.verify_iff reachable applied, forall_nodup_clbits_iff resolved]
  refine ⟨.rfl, fun listed => ?_, fun once => ?_⟩
  case refine_1 =>
    -- What the circuit lists has no classical bit twice, and each operation is among it.
    rw [← forall_nodup_clbits_iff resolved, forall_nodup_clbits_iff listed]
    exact fun i => (reachable.applyAll applied).nodup_of_mem_instructions
  case refine_2 => rwa [(written.instructions_eq_iff reachable applied).mpr once]

-- A Bell pair that is measured.
def measuredPair : Description where
  name := "bell"
  qregs := [⟨"q", 2⟩]
  cregs := [⟨"c", 2⟩]
  ops := [⟨"h", [], [⟨"q", 0⟩], []⟩, ⟨"cx", [], [⟨"q", 0⟩, ⟨"q", 1⟩], []⟩,
    ⟨"measure", [], [⟨"q", 0⟩], [⟨"c", 0⟩]⟩, ⟨"measure", [], [⟨"q", 1⟩], [⟨"c", 1⟩]⟩]

theorem toCircuit_sound_iff_measuredPair : ∃ c, measuredPair.toCircuit = .ok c ∧
    c.dag.verify = .ok () ∧
    List.Forall₂ (fun op i => op.resolve c = .ok i) measuredPair.ops c.dag.instructions := by
  have once : ∀ op ∈ measuredPair.ops, op.clbits.Nodup := by decide
  have accepted : measuredPair.toCircuit.isOk := by decide
  cases h : measuredPair.toCircuit
  case error => simp [h, Except.isOk, Except.toBool] at accepted
  case ok c =>
    have ⟨verify, listed⟩ := toCircuit_sound_iff h
    exact ⟨c, rfl, verify.mpr once, listed.mpr once⟩

-- A barrier that lists a classical bit twice, before the bit is written.
def repeatedBit : Description where
  name := "twice"
  qregs := [⟨"q", 1⟩]
  cregs := [⟨"c", 1⟩]
  ops := [⟨"barrier", [], [⟨"q", 0⟩], [⟨"c", 0⟩, ⟨"c", 0⟩]⟩,
    ⟨"measure", [], [⟨"q", 0⟩], [⟨"c", 0⟩]⟩]

-- It is accepted, and both operations are lost.
theorem toCircuit_repeatedBit : ∃ c, repeatedBit.toCircuit = .ok c ∧ c.dag.verify ≠ .ok () ∧
    c.dag.instructions = [] := by
  have run : (repeatedBit.toCircuit.toOption.map fun c =>
      (c.dag.verify.isOk, c.dag.instructions.length)) = some (false, 0) := by
    decide +kernel
  obtain ⟨c, found, eq⟩ := Option.map_eq_some_iff.mp run
  cases h : repeatedBit.toCircuit
  case error => simp [h, Except.toOption] at found
  case ok c' =>
    rw [h] at found
    cases found
    obtain ⟨bad, lost⟩ := Prod.mk.inj eq
    refine ⟨c, rfl, fun ok => ?_, List.length_eq_zero_iff.mp lost⟩
    rw [ok] at bad
    contradiction

end Description

end CircuitRouting
