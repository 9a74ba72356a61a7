import CircuitRouting.Description.Basic
import CircuitRouting.Proofs.Dag.Written
import CircuitRouting.Proofs.Sorted

/-!
# Circuits that are built

A circuit is built by declaring registers and appending instructions, of which some may be refused. Its
qubits are the numbers below its size. If no operation lists a classical bit twice, its graph has a
serial order.
-/

namespace CircuitRouting

namespace Dag

variable {d : Dag} {n : Nat} {w : Wire} {i j : Instruction}

-- An append that is refused by the checks changes nothing.
theorem append_of_not_fits (h : ¬d.Fits i) : (d.append i).2 = d := by
  cases eq : d.validate i
  case error => simp [append, eq]
  case ok => exact absurd (validate_eq_ok_iff.mp eq) h

theorem tidy_addWire (t : d.graph.Tidy) (w : Wire) : (d.addWire w).graph.Tidy := by
  by_cases h : d.hasWire w
  case pos =>
    rw [addWire_of_hasWire h]
    exact t
  case neg =>
    have ⟨_, _, added⟩ := exists_newWire t h
    exact added.tidy

theorem tidy_append (t : d.graph.Tidy) (i : Instruction) : (d.append i).2.graph.Tidy := by
  by_cases fits : d.Fits i
  case pos => exact (kept_append fits).tidy (t.add _)
  case neg =>
    rw [append_of_not_fits fits]
    exact t

theorem instruction?_append (t : d.graph.Tidy) (fits : d.Fits i) :
    (d.append i).2.instruction? n =
      if n = d.graph.nextNumber then some i else d.instruction? n := by
  have node : (d.append i).2.node? n = (d.graph.add (.op i)).node? n := (kept_append fits).node? n
  rw [instruction?_eq, node, t.node?_add, instruction?_eq]
  split <;> rfl

-- An operation is never overwritten.
theorem instruction?_append_of_some (t : d.graph.Tidy) (i : Instruction)
    (h : d.instruction? n = some j) : (d.append i).2.instruction? n = some j := by
  by_cases fits : d.Fits i
  case pos =>
    rw [instruction?_append t fits, if_neg, h]
    rintro rfl
    simp [instruction?_eq, Dag.node?, t.node?_nextNumber] at h
  case neg => rw [append_of_not_fits fits, h]

theorem hasWire_append (i : Instruction) (w : Wire) : (d.append i).2.hasWire w ↔ d.hasWire w := by
  by_cases fits : d.Fits i
  case pos =>
    rw [hasWire_iff_mem, hasWire_iff_mem, (kept_append fits).wireNames]
    rfl
  case neg => rw [append_of_not_fits fits]

section Fold

variable (f : Nat → Wire) (ns : List Nat)

theorem hasWire_foldl_addWire {v : Wire} :
    (ns.foldl (fun d n => d.addWire (f n)) d).hasWire v ↔ d.hasWire v ∨ v ∈ ns.map f := by
  induction ns generalizing d
  case nil => simp
  case cons n ns hi => simp [hi, hasWire_addWire, or_assoc]

theorem tidy_foldl_addWire (t : d.graph.Tidy) :
    (ns.foldl (fun d n => d.addWire (f n)) d).graph.Tidy := by
  induction ns generalizing d
  case nil => exact t
  case cons n ns hi => exact hi (tidy_addWire t _)

theorem instruction?_foldl_addWire (t : d.graph.Tidy) :
    (ns.foldl (fun d n => d.addWire (f n)) d).instruction? n = d.instruction? n := by
  induction ns generalizing d
  case nil => rfl
  case cons m ns hi => exact (hi (tidy_addWire t _)).trans (instruction?_addWire t _ n)

theorem level_foldl_addWire : (ns.foldl (fun d n => d.addWire (f n)) d).level = d.level := by
  induction ns generalizing d
  case nil => rfl
  case cons n ns hi => exact hi.trans level_addWire

theorem Serial.foldl_addWire {seq : List (Nat × Instruction)} (h : d.Serial seq) :
    (ns.foldl (fun d n => d.addWire (f n)) d).Serial seq := by
  induction ns generalizing d
  case nil => exact h
  case cons n ns hi => exact hi (h.addWire _)

end Fold

end Dag

namespace Circuit

inductive Built : Circuit → Prop
  | named (name : String) : Built (.named name)
  | rename {c : Circuit} (name : String) : Built c → Built { c with name }
  | addQreg {c c' : Circuit} {name : String} {size : Nat} {ids : List Nat} :
    Built c → c.addQreg name size = .ok (ids, c') → Built c'
  | addCreg {c c' : Circuit} {name : String} {size : Nat} {ids : List Nat} :
    Built c → c.addCreg name size = .ok (ids, c') → Built c'
  | append {c : Circuit} (i : Instruction) : Built c → Built { c with dag := (c.dag.append i).2 }

namespace Built

variable {c c' : Circuit} {ids : List Nat} {name : String} {size : Nat}

theorem of_addQreg (eq : c.addQreg name size = .ok (ids, c')) :
    c' = { c with
      qregs := c.qregs ++ [⟨name, size⟩]
      dag := (freshIds c.numQubits size).foldl Dag.addQubit c.dag } := by
  rw [Circuit.addQreg] at eq
  split at eq
  case isTrue => contradiction
  case isFalse =>
    cases eq
    rfl

theorem of_addCreg (eq : c.addCreg name size = .ok (ids, c')) :
    c' = { c with
      cregs := c.cregs ++ [⟨name, size⟩]
      dag := (freshIds c.numClbits size).foldl Dag.addClbit c.dag } := by
  rw [Circuit.addCreg] at eq
  split at eq
  case isTrue => contradiction
  case isFalse =>
    cases eq
    rfl

theorem tidy (h : c.Built) : c.dag.graph.Tidy := by
  induction h
  case named => exact .empty
  case rename hi => exact hi
  case addQreg eq hi => exact of_addQreg eq ▸ Dag.tidy_foldl_addWire .qubit _ hi
  case addCreg eq hi => exact of_addCreg eq ▸ Dag.tidy_foldl_addWire .clbit _ hi
  case append i _ hi => exact Dag.tidy_append hi i

theorem mem_freshIds {used size n : Nat} : n ∈ freshIds used size ↔ used ≤ n ∧ n < used + size := by
  simp only [freshIds, List.mem_map, List.mem_range]
  constructor
  case mp => rintro ⟨k, hk, rfl⟩; omega
  case mpr => exact fun h => ⟨n - used, by omega, by omega⟩

theorem total_append (rs : List Register) (r : Register) :
    Register.total (rs ++ [r]) = Register.total rs + r.size := by
  simp [Register.total, natSum_append]

theorem hasWire_qubit (h : c.Built) (q : Nat) : c.dag.hasWire (.qubit q) ↔ q < c.numQubits := by
  induction h
  case named => simp [Circuit.named, Dag.hasWire, Dag.ends?, numQubits, Register.total]
  case rename hi => exact hi
  case addQreg c _ _ size _ _ eq hi =>
    rw [of_addQreg eq]
    refine (Dag.hasWire_foldl_addWire .qubit _).trans ?_
    simp only [hi, List.mem_map, Wire.qubit.injEq, exists_eq_right, mem_freshIds, numQubits,
      total_append]
    omega
  case addCreg c _ _ size _ _ eq hi =>
    rw [of_addCreg eq]
    refine (Dag.hasWire_foldl_addWire .clbit _).trans ?_
    simp [hi, numQubits]
  case append c i _ hi => exact (Dag.hasWire_append i _).trans hi

theorem hasWire_clbit (h : c.Built) (b : Nat) : c.dag.hasWire (.clbit b) ↔ b < c.numClbits := by
  induction h
  case named => simp [Circuit.named, Dag.hasWire, Dag.ends?, numClbits, Register.total]
  case rename hi => exact hi
  case addQreg c _ _ size _ _ eq hi =>
    rw [of_addQreg eq]
    refine (Dag.hasWire_foldl_addWire .qubit _).trans ?_
    simp [hi, numClbits]
  case addCreg c _ _ size _ _ eq hi =>
    rw [of_addCreg eq]
    refine (Dag.hasWire_foldl_addWire .clbit _).trans ?_
    simp only [hi, List.mem_map, Wire.clbit.injEq, exists_eq_right, mem_freshIds, numClbits,
      total_append]
    omega
  case append c i _ hi => exact (Dag.hasWire_append i _).trans hi

theorem fits (h : c.Built) : ∀ n i, c.dag.instruction? n = some i → c.dag.Fits i := by
  induction h
  case named => simp [Circuit.named, Dag.instruction?, Graph.instruction?, Graph.node?]
  case rename hi => exact hi
  case addQreg c _ _ size _ built eq hi =>
    rw [of_addQreg eq]
    intro n i found
    have old := (Dag.instruction?_foldl_addWire .qubit _ built.tidy).symm.trans found
    exact (hi n i old).congr fun w hw => (Dag.hasWire_foldl_addWire .qubit _).mpr (.inl hw)
  case addCreg c _ _ size _ built eq hi =>
    rw [of_addCreg eq]
    intro n i found
    have old := (Dag.instruction?_foldl_addWire .clbit _ built.tidy).symm.trans found
    exact (hi n i old).congr fun w hw => (Dag.hasWire_foldl_addWire .clbit _).mpr (.inl hw)
  case append c i built hi =>
    intro n j found
    refine Dag.Fits.congr ?_ fun w => (Dag.hasWire_append i w).mpr
    by_cases fits : c.dag.Fits i
    case pos =>
      rw [Dag.instruction?_append built.tidy fits] at found
      split at found
      case isTrue => exact Option.some.inj found ▸ fits
      case isFalse => exact hi n j found
    case neg =>
      rw [Dag.append_of_not_fits fits] at found
      exact hi n j found

-- What is built without repeated classical bits has a serial order.
theorem serial (h : c.Built) (once : ∀ n i, c.dag.instruction? n = some i → i.clbits.Nodup) :
    ∃ seq, c.dag.Serial seq := by
  induction h
  case named => exact ⟨[], .empty .logical⟩
  case rename hi => exact hi once
  case addQreg c _ _ size _ built eq hi =>
    rw [of_addQreg eq] at once ⊢
    have ⟨seq, serial⟩ := hi fun n i hn => once n i <|
      (Dag.instruction?_foldl_addWire .qubit _ built.tidy).trans hn
    exact ⟨seq, serial.foldl_addWire .qubit _⟩
  case addCreg c _ _ size _ built eq hi =>
    rw [of_addCreg eq] at once ⊢
    have ⟨seq, serial⟩ := hi fun n i hn => once n i <|
      (Dag.instruction?_foldl_addWire .clbit _ built.tidy).trans hn
    exact ⟨seq, serial.foldl_addWire .clbit _⟩
  case append c i built hi =>
    have ⟨seq, serial⟩ := hi fun n j hn =>
      once n j (Dag.instruction?_append_of_some built.tidy i hn)
    by_cases fits : c.dag.Fits i
    case pos =>
      have new := Dag.instruction?_append (n := c.dag.graph.nextNumber) built.tidy fits
      have ⟨d', eq, _, serial'⟩ := serial.append ⟨fits, once _ i (by rw [new, if_pos rfl])⟩
      exact ⟨_, by simpa [eq] using serial'⟩
    case neg => exact ⟨seq, by simpa [Dag.append_of_not_fits fits] using serial⟩

theorem apply {i : Instruction} {n : Nat} (h : c.Built) (eq : c.apply i = .ok (n, c')) :
    c'.Built := by
  have ⟨⟨m, d⟩, applied, same⟩ := map_eq_ok_iff.mp eq
  cases same
  have built := h.append i
  rwa [Dag.append_of_apply applied] at built

end Built

theorem built_ofSize (name : String) (qubits clbits : Nat) : (ofSize name qubits clbits).Built := by
  have quantum : ∀ size, ((named name).pushQreg ⟨"q", size⟩).2.Built := fun size =>
    have added : (named name).addQreg "q" size = .ok ((named name).pushQreg ⟨"q", size⟩) := rfl
    .addQreg (.named name) added
  have classical : ∀ c : Circuit, c.Built → c.cregs = [] → ∀ size,
      (c.pushCreg ⟨"c", size⟩).2.Built := by
    intro c built none size
    have added : c.addCreg "c" size =
        .ok ((c.pushCreg ⟨"c", size⟩).1, (c.pushCreg ⟨"c", size⟩).2) := by
      rw [addCreg, none]
      rfl
    exact built.addCreg added
  rw [ofSize]
  split
  case isTrue =>
    refine classical _ ?_ ?_ clbits
    case refine_1 => split <;> [exact quantum qubits; exact .named name]
    case refine_2 => split <;> rfl
  case isFalse => split <;> [exact quantum qubits; exact .named name]

end Circuit

-- A described circuit is built.
theorem Description.built_toCircuit {d : Description} {c : Circuit} (eq : d.toCircuit = .ok c) :
    c.Built := by
  have ⟨c₁, declared, eq⟩ := bind_eq_ok_iff.mp eq
  have ⟨c₂, qregs, cregs⟩ := bind_eq_ok_iff.mp declared
  have built₂ : c₂.Built := by
    refine of_foldlM_eq_ok Circuit.Built (fun c r c' h step => ?_) (.named d.name) qregs
    have ⟨⟨ids, c''⟩, step, same⟩ := map_eq_ok_iff.mp step
    exact same ▸ h.addQreg step
  have built₁ : c₁.Built := by
    refine of_foldlM_eq_ok Circuit.Built (fun c r c' h step => ?_) built₂ cregs
    have ⟨⟨ids, c''⟩, step, same⟩ := map_eq_ok_iff.mp step
    exact same ▸ h.addCreg step
  refine of_foldlM_eq_ok Circuit.Built (fun c op c' h step => ?_) built₁ eq
  have ⟨i, _, step⟩ := bind_eq_ok_iff.mp step
  have ⟨⟨n, c''⟩, step, same⟩ := map_eq_ok_iff.mp step
  exact same ▸ h.apply step

end CircuitRouting
