import CircuitRouting.Proofs.Dag.Grafted
import CircuitRouting.Proofs.Dag.Quantum
import CircuitRouting.Proofs.Dag.Removal
import CircuitRouting.Proofs.Dag.Revision

/-!
# Exchanging operations without classical bits

An operation that gives way to others on its wires leaves all other wires as they are. If the wires of
the qubits follow a sequence of the operations, then an operation without classical bits can be
exchanged for others: they stand in its place in the sequence, and the classical wires do not notice.
So revisions of operations without classical bits cannot fail.
-/

namespace CircuitRouting

namespace Dag

variable {d d' : Dag} {n m q c : Nat} {w : Wire} {i j : Instruction} {is : List Instruction}
  {ns : List Nat} {seq l r fresh : List (Nat × Instruction)}

section Adds

variable {ws : List Wire} {s : Splice}

-- The edges of a graph, and newer ones on the given wires.
def Adds (ws : List Wire) (g g' : Graph) : Prop :=
  ∃ new, g'.edges = new ++ g.edges ∧ ∀ x ∈ new, x.wire ∈ ws

namespace Adds

theorem refl (g : Graph) : Adds ws g g :=
  ⟨[], rfl, by simp⟩

theorem trans {g₁ g₂ g₃ : Graph} (h : Adds ws g₁ g₂) (h' : Adds ws g₂ g₃) : Adds ws g₁ g₃ :=
  have ⟨new, eq, on⟩ := h
  have ⟨new', eq', on'⟩ := h'
  ⟨new' ++ new, by rw [eq', eq, List.append_assoc], List.forall_mem_append.mpr ⟨on', on⟩⟩

theorem link (g : Graph) (a b : Nat) (hw : w ∈ ws) : Adds ws g (g.link a b w) :=
  ⟨[⟨a, b, w⟩], rfl, by simpa using hw⟩

theorem thread (hw : w ∈ ws) : Adds ws s.graph (s.thread n w).graph := by
  rw [Splice.thread]
  split
  case h_1 => exact .link _ _ _ hw
  case h_2 => exact .refl _

theorem threadAll {vs : List Wire} (hvs : ∀ w ∈ vs, w ∈ ws) :
    Adds ws s.graph (vs.foldl (Splice.thread n) s).graph := by
  induction vs generalizing s
  case nil => exact .refl _
  case cons v vs hi =>
    have ⟨here, later⟩ := List.forall_mem_cons.mp hvs
    exact (thread here).trans (hi later)

theorem pushAll (allowed : ∀ j ∈ is, ∀ w ∈ j.wires, w ∈ ws) :
    Adds ws s.graph (is.foldl Splice.push s).graph := by
  induction is generalizing s
  case nil => exact .refl _
  case cons i is hi =>
    have ⟨here, later⟩ := List.forall_mem_cons.mp allowed
    have node : Adds ws s.graph (s.graph.add (.op i)) := ⟨[], Graph.edges_add _, by simp⟩
    exact (node.trans (threadAll here)).trans (hi later)

theorem closeAll {ls : List Link} (hls : ∀ l ∈ ls, l.wire ∈ ws) :
    Adds ws s.graph (ls.foldl Splice.close s).graph := by
  induction ls generalizing s
  case nil => exact .refl _
  case cons l ls hi =>
    have ⟨here, later⟩ := List.forall_mem_cons.mp hls
    refine trans ?_ (hi later)
    rw [Splice.close]
    split
    case h_1 => exact .link _ _ _ here
    case h_2 => exact .refl _

end Adds

end Adds

theorem Grafted.pushAll {base : Graph} {s : Splice} (h : Grafted base fresh s) (is : List Instruction) :
    ∃ fresh', fresh'.map Prod.snd = fresh.map Prod.snd ++ is ∧
      Grafted base fresh' (is.foldl Splice.push s) := by
  induction is generalizing s fresh
  case nil => exact ⟨fresh, by simp, h⟩
  case cons i is hi =>
    have ⟨fresh', snd, rest⟩ := hi (h.push i)
    exact ⟨fresh', by simp [snd], rest⟩

-- An operation has given way to others on its wires.
structure Exchanged (d : Dag) (n : Nat) (i : Instruction) (fresh : List (Nat × Instruction))
    (d' : Dag) : Prop where
  found : d.instruction? n = some i
  replaced : d.Replaced n fresh d'
  allowed : ∀ x ∈ fresh, ∀ w ∈ x.2.wires, w ∈ i.wires
  adds : Adds i.wires (d.graph.remove n) d'.graph
  ends : d'.wires.map (fun e => (e.wire, e.input, e.output)) =
    d.wires.map fun e => (e.wire, e.input, e.output)
  quantum : ∀ s, d.quantum.Serial s → ∃ l r, s = l ++ (n, i.blank) :: r ∧
    d'.quantum.Serial (l ++ fresh.map (fun x => (x.1, x.2.blank)) ++ r)

-- One node has made way for the new ones.
theorem Replaced.length_nodes (rep : d.Replaced n fresh d') (node : (d.node? n).isSome) :
    d'.graph.nodes.length + 1 = d.graph.nodes.length + fresh.length := by
  have nodup : ∀ g : Graph, g.nodes.Nodup := fun g => g.nodes_sorted.imp Nat.ne_of_lt
  have here : n ∈ d.graph.nodes := d.graph.mem_nodes.mpr node
  have perm : d'.graph.nodes.Perm (fresh.map Prod.fst ++ d.graph.nodes.erase n) := by
    refine (List.perm_ext_iff_of_nodup (nodup _) (List.nodup_append.mpr ⟨rep.nodup,
      (nodup _).erase n, ?_⟩)).mpr fun m => ?_
    case refine_1 =>
      rintro a ha b hb rfl
      rw [(nodup _).mem_erase_iff, Graph.mem_nodes] at hb
      exact rep.notMem hb.2 hb.1 ha
    case refine_2 =>
      rw [Graph.mem_nodes, List.mem_append, (nodup _).mem_erase_iff, Graph.mem_nodes]
      by_cases new : m ∈ fresh.map Prod.fst
      case pos =>
        have op := isSome_of_instruction? (rep.instruction? new)
        simp only [new, op, true_or]
      case neg =>
        have old : d'.graph.node? m = if m = n then none else d.graph.node? m := rep.old m new
        rw [old]
        by_cases eq : m = n
        case pos => simp [eq, eq ▸ new]
        case neg => simp [eq, new]
  have len := perm.length_eq
  have pos := List.length_pos_of_mem here
  simp only [List.length_append, List.length_map, List.length_erase_of_mem here] at len
  omega

theorem added_closeAll {s : Splice} (ls : List Link) : (ls.foldl Splice.close s).added = s.added := by
  induction ls generalizing s
  case nil => rfl
  case cons l ls hi =>
    refine (hi (s := s.close l)).trans ?_
    rw [Splice.close]
    split <;> rfl

theorem alike_of_ends (ends : d'.wires.map (fun e => (e.wire, e.input, e.output)) =
    d.wires.map fun e => (e.wire, e.input, e.output)) (level : d'.level = d.level) : d.Alike d' := by
  refine ⟨?_, level⟩
  have names := congrArg (List.map Prod.fst) ends
  simpa [wireNames, Function.comp_def] using names

theorem exchanged_substitute (tidy : d.graph.Tidy) (h : d.substitute n is = .ok (ns, d')) :
    ∃ i fresh, fresh.map Prod.fst = ns ∧ fresh.map Prod.snd = is ∧ d.Exchanged n i fresh d' := by
  obtain ⟨i, ls, found, checked, links, spliced⟩ := substitute_eq_ok h
  have allowed : ∀ j ∈ is, ∀ w ∈ j.wires, w ∈ i.wires := fun j hj => (checked j hj).2
  have quantum := quantum_substitute h
  have ends := ends_substitute h
  cases spliced
  have op := Option.isSome_of_mem found
  let start : Splice := ⟨d.graph.remove n, ls.map fun l => (l.wire, l.pred), []⟩
  have grafted : Grafted (d.graph.remove n) [] start :=
    ⟨tidy.remove (isSome_of_instruction? op), rfl, .nil, by simp, by simp, fun _ _ => rfl⟩
  obtain ⟨fresh, snd, g⟩ := grafted.pushAll is
  have closed := wider_foldl_close (s := is.foldl Splice.push start) ls
  have snd : fresh.map Prod.snd = is := by simpa using snd
  have fst : (ls.foldl Splice.close (is.foldl Splice.push start)).added = fresh.map Prod.fst :=
    (added_closeAll ls).trans g.added
  refine ⟨i, fresh, fst.symm, snd, found, g.replaced op (alike_of_ends ends rfl) closed.node?,
    fun x hx => allowed x.2 (snd ▸ List.mem_map_of_mem hx), ?_, ends, fun s serial => ?_⟩
  case refine_1 => exact (Adds.pushAll allowed).trans (.closeAll fun l hl => (of_mem_links links hl).1)
  case refine_2 =>
    have once : ∀ j ∈ is.map Instruction.blank, j.clbits.Nodup :=
      List.forall_mem_map.mpr fun _ _ => .nil
    obtain ⟨u, j, v, blanks, split, fst', snd', _, _, serial'⟩ := serial.of_substitute once quantum
    have same : j = i.blank := by
      have listed := (serial.mem_iff n j).mp (by simp [split])
      rw [instruction?_quantum found] at listed
      exact (Option.some.inj listed).symm
    have eq : blanks = fresh.map fun x => (x.1, x.2.blank) := by
      refine (List.zip_of_prod fst' snd').trans (List.zip_of_prod ?_ ?_).symm
      case refine_1 => simpa [Function.comp_def] using fst.symm
      case refine_2 => simp [← snd, Function.comp_def]
    exact ⟨u, v, same ▸ split, eq ▸ serial'⟩

theorem replaced_removeOp (h : d.removeOp n = .ok (i, d')) : d.Replaced n [] d' := by
  have ⟨_, _, _, kept, _⟩ := removeOp_eq_ok h
  exact ⟨⟨kept.wireNames, kept.level⟩, .nil, by simp, by simp, fun m _ => node?_removeOp h m⟩

theorem exchanged_removeOp (h : d.removeOp n = .ok (i, d')) : d.Exchanged n i [] d' := by
  obtain ⟨found, ls, links, kept, edges⟩ := removeOp_eq_ok h
  refine ⟨found, replaced_removeOp h, by simp, ⟨_, edges, fun x hx => ?_⟩, kept.ends, fun s serial => ?_⟩
  case refine_1 =>
    obtain ⟨l, hl, eq⟩ := List.mem_map.mp (List.mem_reverse.mp hx)
    exact eq ▸ (of_mem_links links hl).1
  case refine_2 =>
    obtain ⟨u, v, split, _, serial'⟩ := serial.of_removeOp (quantum_removeOp h)
    exact ⟨u, v, split, by simpa using serial'⟩

-- The operations after an exchange are new ones or old ones.
theorem Exchanged.of_instruction? (ex : d.Exchanged n i fresh d') (found : d'.instruction? m = some j) :
    (m, j) ∈ fresh ∨ d.instruction? m = some j := by
  rw [instruction?_eq_some_iff] at found
  by_cases new : m ∈ fresh.map Prod.fst
  case pos =>
    have ⟨x, hx, eq⟩ := List.mem_map.mp new
    have node := ex.replaced.new x hx
    rw [eq, found, Option.some.injEq, Node.op.injEq] at node
    have same : x = (m, j) := Prod.ext eq node.symm
    exact .inl (same ▸ hx)
  case neg =>
    rw [ex.replaced.old m new] at found
    split at found
    case isTrue => contradiction
    case isFalse => exact .inr (instruction?_eq_some_iff.mpr found)

-- The wires of the qubits follow the sequence.
structure Spun (d : Dag) (seq : List (Nat × Instruction)) : Prop extends d.Lists seq where
  quantum : ∃ s, d.quantum.Serial s ∧ ∀ q, onWire (.qubit q) s = onWire (.qubit q) seq

theorem mem_wires_blank : .qubit q ∈ i.blank.wires ↔ .qubit q ∈ i.wires := by
  simp [Instruction.wires, Instruction.blank, Instruction.barrier]

theorem onWire_blanks : onWire (.qubit q) (fresh.map fun x => (x.1, x.2.blank)) =
    onWire (.qubit q) fresh := by
  simp [onWire, List.filter_map, Function.comp_def, Instruction.blank, Instruction.barrier,
    Instruction.wires]

namespace Spun

theorem wireOps_qubit (h : d.Spun seq) (q : Nat) :
    d.wireOps (.qubit q) = onWire (.qubit q) seq := by
  obtain ⟨s, serial, same⟩ := h.quantum
  by_cases hw : d.hasWire (.qubit q)
  case pos =>
    obtain ⟨e, he, wire⟩ := hasWire_iff.mp ((d.hasWire_quantum q).trans hw)
    have follows : d.Follows (.qubit q) (e.input :: (onWire (.qubit q) seq ++ [e.output])) := by
      have follows := serial.laid.follows he
      rw [track, wire, same] at follows
      exact fun a b hop => (d.successor?_quantum a q).symm.trans (follows a b hop)
    have ends : d.ends? (.qubit q) = some e := by
      rw [← ends?_quantum, ← wire]
      exact serial.laid.ends?_eq he
    have output : d.instruction? e.output = none := by
      have node := serial.laid.output e he
      rw [node?_quantum, wire, Option.map_eq_some_iff] at node
      obtain ⟨x, node, eq⟩ := node
      cases x
      case op => cases eq
      all_goals simp [instruction?_eq, node, Node.instruction?]
    refine follows.wireOps ends (fun m hm => ?_) output (h.nodup.sublist onWire_sublist)
    obtain ⟨i, hi, _⟩ := mem_onWire.mp hm
    exact Option.isSome_of_mem ((h.mem_iff m i).mp hi)
  case neg =>
    rw [wireOps_of_not_hasWire hw, ← same, onWire_eq_nil fun x hx mem => hw ?_]
    exact (d.hasWire_quantum q).symm.trans (serial.hasWire hx mem)

theorem reads (h : d.Spun seq) : d.Reads seq :=
  ⟨h.toLists, h.wireOps_qubit⟩

-- The new operations stand, on each qubit, where the old one stood.
theorem exchange (h : d.Spun (l ++ (n, i) :: r)) (ex : d.Exchanged n i fresh d') :
    d'.Spun (l ++ fresh ++ r) := by
  obtain ⟨s, serial, same⟩ := h.quantum
  obtain ⟨u, v, rfl, serial'⟩ := ex.quantum s serial
  refine ⟨h.toLists.replace ex.replaced, _, serial', fun q => ?_⟩
  have blank : ∀ x ∈ fresh.map (fun x => (x.1, x.2.blank)), .qubit q ∈ x.2.wires →
      .qubit q ∈ i.blank.wires := by
    refine List.forall_mem_map.mpr fun x hx hq => ?_
    exact mem_wires_blank.mpr (ex.allowed x hx _ (mem_wires_blank.mp hq))
  rw [← serial.lists.onWire_replace blank, ← h.toLists.onWire_replace fun x hx => ex.allowed x hx _,
    onWire_blanks, same]

theorem tidy (h : d.Spun seq) : d.graph.Tidy := by
  have ⟨_, serial, _⟩ := h.quantum
  have tidy := serial.laid.tidy
  refine ⟨tidy.nodup, fun n => (tidy.mem_freed n).trans ?_⟩
  have node : d.quantum.graph.node? n = (d.graph.node? n).map Node.quantum := d.graph.node?_quantum n
  have size : d.quantum.graph.slots.size = d.graph.slots.size := Array.size_map
  simp [node, size]

theorem exists_links (h : d.Spun (l ++ (n, i) :: r)) (bare : i.clbits = []) :
    ∃ ls, d.links n i = .ok ls := by
  have ⟨s, serial, _⟩ := h.quantum
  have found := (h.mem_iff n i).mp (by simp)
  have ⟨u, v, split⟩ := List.append_of_mem ((serial.mem_iff _ _).mpr (instruction?_quantum found))
  subst split
  have ⟨_, eq, _, _⟩ := serial.removeOp
  have ⟨_, ls, links, _⟩ := removeOp_eq_ok eq
  exact ⟨ls, links_of_quantum bare links⟩

theorem removeOp (h : d.Spun (l ++ (n, i) :: r)) (bare : i.clbits = []) :
    ∃ d', d.removeOp n = .ok (i, d') ∧ d.Exchanged n i [] d' := by
  have ⟨ls, links⟩ := h.exists_links bare
  have found := (h.mem_iff n i).mp (by simp)
  have ⟨d', eq⟩ : ∃ d', d.removeOp n = .ok (i, d') := by
    rw [Dag.removeOp, instruction?_eq_some_iff.mp found]
    exact ⟨_, bind_eq_ok_iff.mpr ⟨ls, links, rfl⟩⟩
  exact ⟨d', eq, exchanged_removeOp eq⟩

theorem substitute (h : d.Spun (l ++ (n, i) :: r)) (bare : i.clbits = [])
    (fits : ∀ j ∈ is, d.Fits j) (allowed : ∀ j ∈ is, ∀ w ∈ j.wires, w ∈ i.wires) :
    ∃ fresh d', d.substitute n is = .ok (fresh.map Prod.fst, d') ∧ fresh.map Prod.snd = is ∧
      d.Exchanged n i fresh d' := by
  obtain ⟨ls, links⟩ := h.exists_links bare
  have found := (h.mem_iff n i).mp (by simp)
  have check : is.forM (d.checkReplacement i.wires) = .ok () := by
    refine forM_eq_ok_iff.mpr fun j hj => ?_
    have inside : (j.wires.find? fun w => !i.wires.contains w) = none := by
      simpa using allowed j hj
    rw [checkReplacement, validate_eq_ok_iff.mpr (fits j hj), inside]
    rfl
  obtain ⟨ns, d', eq⟩ : ∃ ns d', d.substitute n is = .ok (ns, d') := by
    simp only [Dag.substitute, found, check, links]
    exact ⟨_, _, rfl⟩
  obtain ⟨j, fresh, fst, snd, ex⟩ := exchanged_substitute h.tidy eq
  have same : j = i := Option.some.inj (ex.found.symm.trans found)
  exact ⟨fresh, d', fst ▸ eq, snd, same ▸ ex⟩

end Spun

end Dag

end CircuitRouting
