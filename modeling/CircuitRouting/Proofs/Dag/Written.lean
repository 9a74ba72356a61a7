import CircuitRouting.Proofs.Dag.Order

/-!
# Graphs that only grow

A graph that takes one wire or operation after the other never reuses a number, and the input of a wire
has a lower number than the operations on it. Its topological order is the order in which the operations
came, whenever the wires came.
-/

namespace CircuitRouting.Dag

variable {d d' : Dag} {n : Nat} {w : Wire} {i : Instruction} {seq : List (Nat × Instruction)}
  {is : List Instruction}

-- What putting a node on wires leaves alone: the nodes, and the ends of the wires.
structure Kept (d d' : Dag) : Prop where
  slots : d'.graph.slots = d.graph.slots
  freed : d'.graph.freed = d.graph.freed
  ends : d'.wires.map (fun e => (e.wire, e.input, e.output)) =
    d.wires.map fun e => (e.wire, e.input, e.output)
  level : d'.level = d.level

theorem exists_same_ends {ends ends' : List WireEnds} {e : WireEnds}
    (h : ends'.map (fun e => (e.wire, e.input, e.output)) = ends.map fun e => (e.wire, e.input, e.output))
    (he : e ∈ ends') :
    ∃ e' ∈ ends, e'.wire = e.wire ∧ e'.input = e.input ∧ e'.output = e.output := by
  have mem : (e.wire, e.input, e.output) ∈ ends.map fun e => (e.wire, e.input, e.output) :=
    h ▸ List.mem_map_of_mem he
  have ⟨e', he', eq⟩ := List.mem_map.mp mem
  simp only [Prod.mk.injEq] at eq
  exact ⟨e', he', eq⟩

theorem map_input_of_ends (h : d'.wires.map (fun e => (e.wire, e.input, e.output)) =
      d.wires.map fun e => (e.wire, e.input, e.output)) :
    (d'.ends? w).map WireEnds.input = (d.ends? w).map WireEnds.input := by
  have found : ∀ d : Dag, (d.ends? w).map WireEnds.input =
      ((d.wires.map fun e => (e.wire, e.input, e.output)).find? (·.1 == w)).map (·.2.1) := by
    intro d
    simp [ends?, List.find?_map, Function.comp_def]
  rw [found, found, h]

namespace Kept

theorem refl (d : Dag) : d.Kept d :=
  ⟨rfl, rfl, rfl, rfl⟩

theorem trans {d₁ d₂ d₃ : Dag} (h : d₁.Kept d₂) (h' : d₂.Kept d₃) : d₁.Kept d₃ :=
  ⟨h'.slots.trans h.slots, h'.freed.trans h.freed, h'.ends.trans h.ends, h'.level.trans h.level⟩

theorem node? (h : d.Kept d') (n : Nat) : d'.node? n = d.node? n := by
  simp [Dag.node?, Graph.node?, h.slots]

theorem tidy (h : d.Kept d') (t : d.graph.Tidy) : d'.graph.Tidy :=
  t.congr h.slots h.freed

theorem exists_ends {e : WireEnds} (h : d.Kept d') (he : e ∈ d'.wires) :
    ∃ e' ∈ d.wires, e'.wire = e.wire ∧ e'.input = e.input ∧ e'.output = e.output :=
  exists_same_ends h.ends he

theorem wireNames (h : d.Kept d') : d'.wireNames = d.wireNames := by
  have := congrArg (List.map Prod.fst) h.ends
  simpa [Dag.wireNames, Function.comp_def] using this

theorem map_input_ends? (h : d.Kept d') :
    (d'.ends? w).map WireEnds.input = (d.ends? w).map WireEnds.input :=
  map_input_of_ends h.ends

end Kept

theorem kept_extend (h : d.extend w n = .ok d') : d.Kept d' := by
  rw [extend] at h
  split at h
  case h_1 => contradiction
  case h_2 e found =>
    split at h
    case isFalse => contradiction
    case isTrue =>
      cases h
      refine ⟨rfl, rfl, ?_, rfl⟩
      rw [setFront, List.map_map]
      refine List.map_congr_left fun e' _ => ?_
      simp only [Function.comp]
      split <;> rfl

theorem kept_extendAll (ws : List Wire) : d.Kept (extendAll n ws d).2 := by
  induction ws generalizing d
  case nil => exact .refl d
  case cons w ws hi =>
    rw [extendAll]
    split
    case h_1 d' eq => exact (kept_extend eq).trans hi
    case h_2 => exact .refl d

-- An append either fails at the checks or puts the new node on the wires.
theorem kept_append (fits : d.Fits i) :
    Kept { d with graph := d.graph.add (.op i) } (d.append i).2 := by
  simp only [append, validate_eq_ok_iff.mpr fits]
  exact kept_extendAll i.wires

theorem fits_of_append (h : d.append i = (.ok n, d')) : d.Fits i := by
  refine validate_eq_ok_iff.mp ?_
  cases eq : d.validate i
  case error => simp [append, eq] at h
  case ok => rfl

theorem kept_of_append (h : d.append i = (.ok n, d')) :
    Kept { d with graph := d.graph.add (.op i) } d' := by
  have kept := kept_append (fits_of_append h)
  rwa [h] at kept

theorem append_of_apply (h : d.apply i = .ok (n, d')) : d.append i = (.ok n, d') := by
  rw [apply] at h
  split at h
  case h_1 eq =>
    cases h
    exact eq
  case h_2 => contradiction

theorem of_applyAll_cons (h : d.applyAll (i :: is) = .ok d') :
    ∃ n d₁, d.apply i = .ok (n, d₁) ∧ d₁.applyAll is = .ok d' := by
  rw [applyAll, List.foldlM_cons] at h
  have ⟨_, step, rest⟩ := bind_eq_ok_iff.mp h
  have ⟨⟨n, d₁⟩, applied, same⟩ := map_eq_ok_iff.mp step
  cases same
  exact ⟨n, d₁, applied, rest⟩

structure Written (d : Dag) (seq : List (Nat × Instruction)) : Prop where
  serial : d.Serial seq
  full : d.graph.freed = []
  sorted : (seq.map Prod.fst).Pairwise (· < ·)
  inputs : ∀ e ∈ d.wires, ∀ n ∈ onWire e.wire seq, e.input < n

theorem Written.empty (level : Level) : Written { level } [] :=
  ⟨.empty level, rfl, .nil, by simp⟩

theorem freed_add {g : Graph} (x : Node) (h : g.freed = []) : (g.add x).freed = [] := by
  simp [Graph.add, h]

theorem Written.addWire (h : d.Written seq) (w : Wire) : (d.addWire w).Written seq := by
  by_cases hw : d.hasWire w
  case pos =>
    rw [addWire_of_hasWire hw]
    exact h
  case neg =>
    have ⟨_, _, added⟩ := exists_newWire h.serial.laid.tidy hw
    refine ⟨h.serial.addWire w, ?_, h.sorted, added.forall_mem_wires.mpr ⟨h.inputs, fun n hn => ?_⟩⟩
    case refine_1 =>
      simp only [Dag.addWire, hw, Bool.false_eq_true, if_false]
      exact freed_add _ (freed_add _ h.full)
    case refine_2 =>
      -- No operation is on the new wire.
      obtain ⟨i, hi, touches⟩ := mem_onWire.mp hn
      exact absurd (h.serial.hasWire hi touches) hw

theorem Written.foldl_addWire (h : d.Written seq) (f : Nat → Wire) (ns : List Nat) :
    (ns.foldl (fun d n => d.addWire (f n)) d).Written seq := by
  induction ns generalizing d
  case nil => exact h
  case cons n ns hi => exact hi (h.addWire (f n))

theorem Written.ofWires (qubits clbits : List Nat) (level : Level) :
    (ofWires qubits clbits level).Written [] :=
  ((Written.empty level).foldl_addWire .qubit qubits).foldl_addWire .clbit clbits

namespace Written

theorem append (h : d.Written seq) (fits : d.FitsOnce i) :
    ∃ d', d.append i = (.ok d.graph.nextNumber, d') ∧ d.Alike d' ∧
      d'.Written (seq ++ [(d.graph.nextNumber, i)]) := by
  obtain ⟨d', eq, alike, serial⟩ := h.serial.append fits
  have kept := kept_append fits.toFits
  rw [eq] at kept
  have next : d.graph.nextNumber = d.graph.slots.size := by simp [Graph.nextNumber, h.full]
  -- All numbers in use are below the new one.
  have below : ∀ m, (d.node? m).isSome → m < d.graph.nextNumber := by
    intro m hm
    rw [next]
    exact d.graph.lt_size_of_isSome hm
  refine ⟨d', eq, alike, serial, ?_, ?_, ?_⟩
  case refine_1 => exact kept.freed.trans (freed_add _ h.full)
  case refine_2 =>
    rw [List.map_append, List.pairwise_append]
    refine ⟨h.sorted, by simp, fun a ha b hb => ?_⟩
    cases List.mem_singleton.mp hb
    exact below a (isSome_of_instruction? (h.serial.isSome_of_mem ha))
  case refine_3 =>
    intro e he m hm
    obtain ⟨e', he', wire, input, _⟩ := kept.exists_ends he
    rw [onWire_append, List.mem_append] at hm
    rw [← input]
    cases hm
    case inl hm => exact h.inputs e' he' m (wire ▸ hm)
    case inr hm =>
      obtain ⟨j, hj, _⟩ := mem_onWire.mp hm
      cases List.mem_singleton.mp hj
      exact below _ (by simp [h.serial.laid.input e' he'])

theorem apply (h : d.Written seq) (fits : d.FitsOnce i) :
    ∃ d', d.apply i = .ok (d.graph.nextNumber, d') ∧ d.Alike d' ∧
      d'.Written (seq ++ [(d.graph.nextNumber, i)]) := by
  have ⟨d', eq, alike, written⟩ := h.append fits
  exact ⟨d', by rw [Dag.apply, eq], alike, written⟩

theorem of_apply (h : d.Written seq) (once : i.clbits.Nodup) (eq : d.apply i = .ok (n, d')) :
    d.Alike d' ∧ d'.Written (seq ++ [(n, i)]) := by
  have ⟨d'', eq', alike, written⟩ := h.apply ⟨fits_of_append (append_of_apply eq), once⟩
  cases eq.symm.trans eq'
  exact ⟨alike, written⟩

theorem topologicalOps_eq (h : d.Written seq) : d.topologicalOps = seq :=
  h.serial.topologicalOps_eq h.sorted h.inputs

theorem instructions_eq (h : d.Written seq) : d.instructions = seq.map Prod.snd := by
  rw [instructions, h.topologicalOps_eq]

theorem of_applyAll (h : d.Written seq) (once : ∀ i ∈ is, i.clbits.Nodup)
    (eq : d.applyAll is = .ok d') :
    d.Alike d' ∧ ∃ new, new.map Prod.snd = is ∧ d'.Written (seq ++ new) := by
  induction is generalizing d seq
  case nil =>
    cases eq
    exact ⟨.refl _, [], rfl, by simpa using h⟩
  case cons i is hi =>
    have ⟨n, d₁, applied, eq⟩ := of_applyAll_cons eq
    have ⟨alike, h₁⟩ := h.of_apply (once i (by simp)) applied
    have ⟨alike', new, snd, h'⟩ := hi h₁ (fun j hj => once j (by simp [hj])) eq
    exact ⟨alike.trans alike', (n, i) :: new, by simp [snd], by simpa using h'⟩

end Written

end CircuitRouting.Dag
