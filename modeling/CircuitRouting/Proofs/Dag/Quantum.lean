import CircuitRouting.Proofs.Dag.Reachable

/-!
# The quantum wires of a graph

A graph without its classical wires has the same numbers: the ends of the classical wires and the
operations keep their nodes, each as a barrier on its qubits. The edits of a graph are edits of its
quantum part. Since no operation lists a qubit twice, the quantum part of every reachable graph has a
serial order, whatever has become of the classical wires.
-/

namespace CircuitRouting

-- What is found has the weaker property as well.
theorem find?_filter_of_imp {α : Type} {p f : α → Bool} {l : List α} (h : ∀ a ∈ l, f a → p a) :
    (l.filter p).find? f = l.find? f := by
  induction l
  case nil => rfl
  case cons a l hi =>
    have ⟨here, later⟩ := List.forall_mem_cons.mp h
    by_cases hp : p a
    case pos => rw [List.filter_cons_of_pos hp, List.find?_cons, List.find?_cons, hi later]
    case neg =>
      rw [List.filter_cons_of_neg hp, hi later, List.find?_cons_of_neg fun found => hp (here found)]

namespace Wire

def isQubit : Wire → Bool
  | qubit _ => true
  | clbit _ => false

@[simp]
theorem isQubit_qubit (q : Nat) : (qubit q).isQubit = true :=
  rfl

@[simp]
theorem isQubit_clbit (c : Nat) : (clbit c).isQubit = false :=
  rfl

end Wire

-- A view of a loop that only the steps on qubits change.
theorem foldl_filter_isQubit {α β γ : Type} {f : β → α → β} {g : γ → α → γ} (view : β → γ)
    (wire : α → Wire) (qubit : ∀ b a q, wire a = .qubit q → view (f b a) = g (view b) a)
    (clbit : ∀ b a c, wire a = .clbit c → view (f b a) = view b) (as : List α) (b : β) :
    view (as.foldl f b) = (as.filter fun a => (wire a).isQubit).foldl g (view b) := by
  induction as generalizing b
  case nil => rfl
  case cons a as hi =>
    rw [List.foldl_cons, hi]
    cases kind : wire a
    case qubit q =>
      rw [List.filter_cons_of_pos (by simp [kind]), List.foldl_cons, qubit b a q kind]
    case clbit c => rw [List.filter_cons_of_neg (by simp [kind]), clbit b a c kind]

-- An instruction as far as its qubits go.
def Instruction.blank (i : Instruction) : Instruction :=
  .barrier i.qubits

theorem Instruction.wires_blank (i : Instruction) : i.blank.wires = i.qubits.map .qubit := by
  simp [blank, barrier, wires]

theorem Instruction.filter_wires (i : Instruction) : i.wires.filter Wire.isQubit = i.blank.wires := by
  rw [wires_blank, wires, List.filter_append, List.filter_eq_self.mpr, List.filter_eq_nil_iff.mpr,
    List.append_nil]
  · simp
  · simp

def Node.quantum : Node → Node
  | .input (.qubit q) => .input (.qubit q)
  | .output (.qubit q) => .output (.qubit q)
  | .input (.clbit _) | .output (.clbit _) => .op (.barrier [])
  | .op i => .op i.blank

namespace Graph

variable {g : Graph} {a b n q c : Nat}

def quantum (g : Graph) : Graph where
  slots := g.slots.map (Option.map Node.quantum)
  freed := g.freed
  edges := g.edges.filter (·.wire.isQubit)

theorem node?_quantum (g : Graph) (n : Nat) : g.quantum.node? n = (g.node? n).map Node.quantum := by
  simp only [node?, quantum, Array.getElem?_map]
  cases g.slots[n]?
  case none => rfl
  case some x => cases x <;> rfl

theorem nextNumber_quantum (g : Graph) : g.quantum.nextNumber = g.nextNumber := by
  simp [nextNumber, quantum]

theorem quantum_add (g : Graph) (x : Node) : (g.add x).quantum = g.quantum.add x.quantum := by
  cases h : g.freed <;> simp [add, quantum, h, Array.map_setIfInBounds]

theorem quantum_remove (g : Graph) (n : Nat) : (g.remove n).quantum = g.quantum.remove n := by
  simp [remove, quantum, Array.map_setIfInBounds, List.filter_filter, Bool.and_comm]

theorem quantum_link_qubit : (g.link a b (.qubit q)).quantum = g.quantum.link a b (.qubit q) := by
  simp [link, quantum, List.filter_cons]

theorem quantum_link_clbit : (g.link a b (.clbit c)).quantum = g.quantum := by
  simp [link, quantum]

theorem quantum_unlink_qubit :
    (g.unlink a b (.qubit q)).quantum = g.quantum.unlink a b (.qubit q) := by
  simp [unlink, quantum, List.erase_filter]

theorem quantum_unlink_clbit : (g.unlink a b (.clbit c)).quantum = g.quantum := by
  simp only [unlink, quantum, ← List.erase_filter]
  rw [List.erase_of_not_mem (by simp)]

theorem successor?_quantum (g : Graph) (n q : Nat) :
    g.quantum.successor? n (.qubit q) = g.successor? n (.qubit q) := by
  simp only [successor?, quantum]
  rw [find?_filter_of_imp]
  simp +contextual

theorem predecessor?_quantum (g : Graph) (n q : Nat) :
    g.quantum.predecessor? n (.qubit q) = g.predecessor? n (.qubit q) := by
  simp only [predecessor?, quantum]
  rw [find?_filter_of_imp]
  simp +contextual

theorem incoming_quantum (g : Graph) (n : Nat) :
    g.quantum.incoming n = (g.incoming n).filter (·.wire.isQubit) := by
  simp [incoming, quantum, List.filter_filter, Bool.and_comm]

theorem outgoing_quantum (g : Graph) (n : Nat) :
    g.quantum.outgoing n = (g.outgoing n).filter (·.wire.isQubit) := by
  simp [outgoing, quantum, List.filter_filter, Bool.and_comm]

end Graph

namespace Dag

variable {d d' : Dag} {n q c : Nat} {i : Instruction} {is : List Instruction} {w : Wire}
  {ws : List Wire} {seq : List (Nat × Instruction)}

def quantum (d : Dag) : Dag where
  graph := d.graph.quantum
  wires := d.wires.filter (·.wire.isQubit)
  level := d.level

theorem ends?_quantum (d : Dag) (q : Nat) : d.quantum.ends? (.qubit q) = d.ends? (.qubit q) := by
  simp only [ends?, quantum]
  rw [find?_filter_of_imp]
  simp +contextual

theorem hasWire_quantum (d : Dag) (q : Nat) : d.quantum.hasWire (.qubit q) = d.hasWire (.qubit q) := by
  rw [hasWire, ends?_quantum, hasWire]

theorem node?_quantum (d : Dag) (n : Nat) : d.quantum.node? n = (d.node? n).map Node.quantum :=
  d.graph.node?_quantum n

theorem instruction?_quantum (h : d.instruction? n = some i) :
    d.quantum.instruction? n = some i.blank := by
  rw [instruction?_eq_some_iff] at h ⊢
  simp [node?_quantum, h, Node.quantum]

-- An operation of the quantum part is an operation on the same qubits, or on none.
theorem mem_wires_of_quantum {j : Instruction} (h : d.quantum.instruction? n = some j) :
    .qubit q ∈ j.wires ↔ ∃ i, d.instruction? n = some i ∧ .qubit q ∈ i.wires := by
  rw [instruction?_eq_some_iff, node?_quantum, Option.map_eq_some_iff] at h
  obtain ⟨x, node, eq⟩ := h
  rw [instruction?_eq, node]
  cases x
  case op i =>
    cases eq
    rw [Instruction.wires_blank]
    simp [Node.instruction?, Instruction.wires]
  case input w =>
    cases w <;> cases eq
    simp [Node.instruction?, Instruction.wires, Instruction.barrier]
  case output w =>
    cases w <;> cases eq
    simp [Node.instruction?, Instruction.wires, Instruction.barrier]

theorem successor?_quantum (d : Dag) (n q : Nat) :
    d.quantum.successor? n (.qubit q) = d.successor? n (.qubit q) :=
  d.graph.successor?_quantum n q

theorem predecessor?_quantum (d : Dag) (n q : Nat) :
    d.quantum.predecessor? n (.qubit q) = d.predecessor? n (.qubit q) :=
  d.graph.predecessor?_quantum n q

theorem fits_blank (fits : d.Fits i) : d.quantum.FitsOnce i.blank := by
  refine ⟨⟨?_, ?_, ?_, ?_, ?_⟩, ?_⟩
  case refine_3 => exact fun q hq => (d.hasWire_quantum q).trans (fits.qubits q hq)
  case refine_5 => exact fits.nodup
  all_goals simp [Instruction.blank, Instruction.barrier, Instruction.isMeasure, Action.arity?]

section Wires

theorem quantum_addWire_qubit (d : Dag) (q : Nat) :
    (d.addWire (.qubit q)).quantum = d.quantum.addWire (.qubit q) := by
  have next : (d.graph.quantum.add (.input (.qubit q))).nextNumber =
      (d.graph.add (.input (.qubit q))).nextNumber :=
    (congrArg Graph.nextNumber (d.graph.quantum_add (.input (.qubit q)))).symm.trans
      (Graph.nextNumber_quantum _)
  simp only [addWire, hasWire_quantum]
  split
  case isTrue => rfl
  case isFalse =>
    simp [quantum, Graph.quantum_link_qubit, Graph.quantum_add, Graph.nextNumber_quantum, Node.quantum,
      next]

-- A node on no wire.
theorem Serial.add_barrier (h : d.Serial seq) :
    ∃ seq', ({ d with graph := d.graph.add (.op (.barrier [])) } : Dag).Serial seq' := by
  have fits : d.FitsOnce (.barrier []) := by
    refine ⟨⟨?_, ?_, ?_, ?_, ?_⟩, ?_⟩ <;> simp [Instruction.barrier, Instruction.isMeasure, Action.arity?]
  have ⟨d', eq, _, serial⟩ := h.append fits
  simp only [Dag.append, validate_eq_ok_iff.mpr fits.toFits] at eq
  exact ⟨_, (Prod.mk.inj eq).2 ▸ serial⟩

theorem quantum_addWire_clbit (h : d.quantum.Serial seq) (c : Nat) :
    ∃ seq', (d.addWire (.clbit c)).quantum.Serial seq' := by
  by_cases has : d.hasWire (.clbit c)
  case pos =>
    rw [addWire_of_hasWire has]
    exact ⟨seq, h⟩
  case neg =>
    have ⟨_, h₁⟩ := h.add_barrier
    have ⟨_, h₂⟩ := h₁.add_barrier
    refine ⟨_, cast (congrArg (Serial · _) ?_) h₂⟩
    simp [addWire, has, quantum, Graph.quantum_link_clbit, Graph.quantum_add, Node.quantum]

end Wires

section Append

-- Fronts of quantum wires are set in the quantum part as well.
theorem filter_map_front {ends : List WireEnds} {f : WireEnds → WireEnds}
    (wire : ∀ e, (f e).wire = e.wire) :
    (ends.map f).filter (·.wire.isQubit) = (ends.filter (·.wire.isQubit)).map f := by
  rw [List.filter_map]
  simp [Function.comp_def, wire]

-- Fronts of classical wires are not there.
theorem map_front_of_clbit {ends : List WireEnds} {f : WireEnds → WireEnds}
    (same : ∀ e, e.wire.isQubit → f e = e) :
    (ends.filter (·.wire.isQubit)).map f = ends.filter (·.wire.isQubit) := by
  refine (List.map_congr_left fun e he => ?_).trans (List.map_id _)
  exact same e (by simpa using (List.mem_filter.mp he).2)

theorem quantum_setFront_qubit (d : Dag) (q n : Nat) :
    (d.setFront (.qubit q) n).quantum = d.quantum.setFront (.qubit q) n := by
  simp only [setFront, quantum]
  rw [filter_map_front fun e => by split <;> rfl]

theorem quantum_setFront_clbit (d : Dag) (c n : Nat) :
    (d.setFront (.clbit c) n).quantum = d.quantum := by
  simp only [setFront, quantum]
  rw [filter_map_front fun e => by split <;> rfl, map_front_of_clbit fun e he => ?_]
  rw [if_neg]
  intro same
  simp [same] at he

theorem quantum_extend_qubit (h : d.extend (.qubit q) n = .ok d') :
    d.quantum.extend (.qubit q) n = .ok d'.quantum := by
  rw [extend] at h
  split at h
  case h_1 => contradiction
  case h_2 e found =>
    split at h
    case isFalse => contradiction
    case isTrue last =>
      cases h
      rw [extend, ends?_quantum, found]
      dsimp only
      rw [if_pos ((d.successor?_quantum e.front q).trans last), quantum_setFront_qubit]
      simp only [quantum, Graph.quantum_link_qubit, Graph.quantum_unlink_qubit]

theorem quantum_extend_clbit (h : d.extend (.clbit c) n = .ok d') : d'.quantum = d.quantum := by
  rw [extend] at h
  split at h
  case h_1 => contradiction
  case h_2 e found =>
    split at h
    case isFalse => contradiction
    case isTrue =>
      cases h
      rw [quantum_setFront_clbit]
      simp only [quantum, Graph.quantum_link_clbit, Graph.quantum_unlink_clbit]

theorem quantum_extendAll_clbits {cs : List Nat}
    (h : extendAll n (cs.map .clbit) d = (.ok (), d')) : d'.quantum = d.quantum := by
  induction cs generalizing d
  case nil =>
    cases h
    rfl
  case cons c cs hi =>
    have ⟨d₁, step, rest⟩ := extendAll_cons_eq_ok h
    exact (hi rest).trans (quantum_extend_clbit step)

theorem quantum_extendAll {qs cs : List Nat}
    (h : extendAll n (qs.map .qubit ++ cs.map .clbit) d = (.ok (), d')) :
    extendAll n (qs.map .qubit) d.quantum = (.ok (), d'.quantum) := by
  induction qs generalizing d
  case nil =>
    rw [List.map_nil, extendAll, quantum_extendAll_clbits h]
  case cons q qs hi =>
    obtain ⟨d₁, step, rest⟩ := extendAll_cons_eq_ok h
    rw [List.map_cons, extendAll, quantum_extend_qubit step]
    exact hi rest

theorem quantum_apply (h : d.apply i = .ok (n, d')) :
    d.quantum.append i.blank = (.ok n, d'.quantum) := by
  obtain ⟨fits, number, extended⟩ := append_eq_ok (append_of_apply h)
  have valid := validate_eq_ok_iff.mpr (fits_blank fits).toFits
  have rest := quantum_extendAll (d := { d with graph := d.graph.add (.op i) }) extended
  have start : ({ d with graph := d.graph.add (.op i) } : Dag).quantum =
      { d.quantum with graph := d.quantum.graph.add (.op i.blank) } := by
    simp [quantum, Graph.quantum_add, Node.quantum]
  have next : d.quantum.graph.nextNumber = n := (Graph.nextNumber_quantum _).trans number.symm
  rw [← Instruction.wires_blank, start] at rest
  simp only [append, valid, next, rest]
  rfl

end Append

section Remove

variable {ls : List Link} {l : Link}

theorem links_quantum (h : d.links n i = .ok ls) :
    d.quantum.links n i.blank = .ok (ls.filter (·.wire.isQubit)) := by
  rw [links, ← Instruction.filter_wires]
  refine mapM_filter h (fun w l found => ?_) (fun w l hw found => ?_)
  case refine_1 =>
    split at found
    case h_1 =>
      cases found
      rfl
    case h_2 => contradiction
  case refine_2 =>
    cases w
    case clbit => contradiction
    case qubit q =>
      rw [predecessor?_quantum, successor?_quantum]
      exact found

-- Without classical bits, the links of the quantum part are all there are.
theorem links_of_quantum (bare : i.clbits = []) (h : d.quantum.links n i.blank = .ok ls) :
    d.links n i = .ok ls := by
  have wires : i.wires = i.qubits.map .qubit := by simp [Instruction.wires, bare]
  rw [links, wires, mapM_eq_ok_iff, List.forall₂_map_left_iff]
  rw [links, Instruction.wires_blank, mapM_eq_ok_iff, List.forall₂_map_left_iff] at h
  refine h.imp fun q l found => ?_
  rw [predecessor?_quantum, successor?_quantum] at found
  exact found

theorem quantum_rejoin (d : Dag) (n : Nat) (ls : List Link) :
    (ls.foldl (rejoin n) d).quantum =
      (ls.filter (·.wire.isQubit)).foldl (rejoin n) d.quantum := by
  refine foldl_filter_isQubit quantum Link.wire (fun d l q wire => ?_) (fun d l c wire => ?_) ls d
  case refine_1 =>
    simp only [rejoin, wire, ends?_quantum]
    split
    case h_2 => simp only [quantum, Graph.quantum_link_qubit]
    case h_1 =>
      split
      case isFalse => simp only [quantum, Graph.quantum_link_qubit]
      case isTrue =>
        rw [quantum_setFront_qubit]
        simp only [quantum, Graph.quantum_link_qubit]
  case refine_2 =>
    simp only [rejoin, wire]
    split
    case h_2 => simp only [quantum, Graph.quantum_link_clbit]
    case h_1 =>
      split
      case isFalse => simp only [quantum, Graph.quantum_link_clbit]
      case isTrue =>
        rw [quantum_setFront_clbit]
        simp only [quantum, Graph.quantum_link_clbit]

theorem quantum_removeOp (h : d.removeOp n = .ok (i, d')) :
    d.quantum.removeOp n = .ok (i.blank, d'.quantum) := by
  rw [removeOp] at h
  split at h
  case h_1 => contradiction
  case h_3 => contradiction
  case h_2 j node =>
    obtain ⟨ls, links, same⟩ := bind_eq_ok_iff.mp h
    cases same
    have node' : d.quantum.node? n = some (.op i.blank) := by simp [node?_quantum, node, Node.quantum]
    rw [removeOp, node']
    refine bind_eq_ok_iff.mpr ⟨_, links_quantum links, ?_⟩
    rw [quantum_rejoin]
    simp only [quantum, Graph.quantum_remove]
    rfl

end Remove

section Substitute

variable {s : Splice} {ls : List Link} {ns : List Nat}

def Splice.quantum (s : Splice) : Splice where
  graph := s.graph.quantum
  last := s.last.filter (·.1.isQubit)
  added := s.added

theorem lookup_filter_qubit (last : List (Wire × Nat)) (q : Nat) :
    (last.filter (·.1.isQubit)).lookup (.qubit q) = last.lookup (.qubit q) := by
  induction last
  case nil => rfl
  case cons x last hi =>
    obtain ⟨w, n⟩ := x
    cases w
    case qubit p =>
      rw [List.filter_cons_of_pos (by rfl), List.lookup_cons, List.lookup_cons, hi]
    case clbit c =>
      rw [List.filter_cons_of_neg (by simp), hi, List.lookup_cons]
      rfl

theorem quantum_thread_qubit (s : Splice) (n q : Nat) :
    (s.thread n (.qubit q)).quantum = s.quantum.thread n (.qubit q) := by
  simp only [Splice.thread, Splice.quantum, lookup_filter_qubit]
  split
  case h_1 => simp [Graph.quantum_link_qubit, List.filter_cons]
  case h_2 => simp [List.filter_cons]

theorem quantum_thread_clbit (s : Splice) (n c : Nat) :
    (s.thread n (.clbit c)).quantum = s.quantum := by
  simp only [Splice.thread, Splice.quantum]
  split
  case h_1 => simp [Graph.quantum_link_clbit]
  case h_2 => simp

theorem quantum_push (s : Splice) (i : Instruction) : (s.push i).quantum = s.quantum.push i.blank := by
  have threaded : ∀ (n : Nat) (s : Splice), (i.wires.foldl (Splice.thread n) s).quantum =
      i.blank.wires.foldl (Splice.thread n) s.quantum := by
    intro n s
    rw [← Instruction.filter_wires]
    refine foldl_filter_isQubit Splice.quantum (fun w => w) ?_ ?_ i.wires s
    case refine_1 =>
      rintro s _ q rfl
      exact quantum_thread_qubit s n q
    case refine_2 =>
      rintro s _ c rfl
      exact quantum_thread_clbit s n c
  rw [Splice.push, threaded, Splice.push]
  simp [Splice.quantum, Graph.nextNumber_quantum, Graph.quantum_add, Node.quantum]

theorem quantum_pushAll (s : Splice) (is : List Instruction) :
    (is.foldl Splice.push s).quantum = (is.map Instruction.blank).foldl Splice.push s.quantum := by
  induction is generalizing s
  case nil => rfl
  case cons i is hi => rw [List.foldl_cons, hi, quantum_push, List.map_cons, List.foldl_cons]

theorem quantum_closeAll (s : Splice) (ls : List Link) :
    (ls.foldl Splice.close s).quantum =
      (ls.filter (·.wire.isQubit)).foldl Splice.close s.quantum := by
  refine foldl_filter_isQubit Splice.quantum Link.wire (fun s l q wire => ?_) (fun s l c wire => ?_) ls s
  case refine_1 =>
    simp only [Splice.close, Splice.quantum, wire, lookup_filter_qubit]
    split
    case h_1 => simp only [Graph.quantum_link_qubit]
    case h_2 => rfl
  case refine_2 =>
    simp only [Splice.close, wire]
    split
    case h_1 => simp only [Splice.quantum, Graph.quantum_link_clbit]
    case h_2 => rfl

theorem quantum_advanceFront (n : Nat) (s : Splice) (ls : List Link) (ends : List WireEnds) :
    (ls.foldl (advanceFront n s) ends).filter (·.wire.isQubit) =
      (ls.filter (·.wire.isQubit)).foldl (advanceFront n s.quantum)
        (ends.filter (·.wire.isQubit)) := by
  refine foldl_filter_isQubit (List.filter (·.wire.isQubit)) Link.wire (fun ends l q wire => ?_)
    (fun ends l c wire => ?_) ls ends
  case refine_1 =>
    simp only [advanceFront, Splice.quantum, wire, lookup_filter_qubit]
    exact filter_map_front fun e => by split <;> rfl
  case refine_2 =>
    simp only [advanceFront, wire]
    rw [filter_map_front fun e => by split <;> rfl, map_front_of_clbit fun e he => ?_]
    rw [if_neg]
    intro same
    simp [same.1] at he

theorem quantum_splice (d : Dag) (n : Nat) (ls : List Link) (is : List Instruction) :
    d.quantum.splice n (ls.filter (·.wire.isQubit)) (is.map Instruction.blank) =
      ((d.splice n ls is).1, (d.splice n ls is).2.quantum) := by
  let start : Splice := ⟨d.graph.remove n, ls.map fun l => (l.wire, l.pred), []⟩
  have gap : (⟨d.quantum.graph.remove n,
      (ls.filter (·.wire.isQubit)).map fun l => (l.wire, l.pred), []⟩ : Splice) = start.quantum := by
    simp [Splice.quantum, start, quantum, Graph.quantum_remove, List.filter_map, Function.comp_def]
  simp only [splice, gap]
  rw [← quantum_pushAll, ← quantum_closeAll]
  simp only [quantum]
  rw [← quantum_advanceFront]
  rfl

theorem quantum_substitute (h : d.substitute n is = .ok (ns, d')) :
    d.quantum.substitute n (is.map Instruction.blank) = .ok (ns, d'.quantum) := by
  have ⟨i, ls, found, checked, links, spliced⟩ := substitute_eq_ok h
  have found' : d.quantum.instruction? n = some i.blank := by
    rw [instruction?_eq_some_iff] at found ⊢
    simp [node?_quantum, found, Node.quantum]
  have checks : (is.map Instruction.blank).forM (d.quantum.checkReplacement i.blank.wires) = .ok () := by
    refine forM_eq_ok_iff.mpr (List.forall_mem_map.mpr fun j hj => ?_)
    have ⟨fits, allowed⟩ := checked j hj
    have inside : (j.blank.wires.find? fun w => !i.blank.wires.contains w) = none := by
      rw [← Instruction.filter_wires, ← Instruction.filter_wires]
      simpa +contextual using fun w hw _ => allowed w hw
    rw [checkReplacement, validate_eq_ok_iff.mpr (fits_blank fits).toFits, inside]
    rfl
  rw [substitute, found']
  refine bind_eq_ok_iff.mpr ⟨_, checks, bind_eq_ok_iff.mpr ⟨_, links_quantum links, ?_⟩⟩
  rw [quantum_splice, spliced]
  rfl

end Substitute

theorem Serial.setLevel (h : d.Serial seq) (level : Level) : Serial { d with level } seq where
  laid := { h.laid with }
  nodup := h.nodup
  mem_iff := h.mem_iff
  fits x hx := (h.fits x hx).congr fun _ hw => hw

theorem Reachable.exists_serial_quantum (h : d.Reachable) : ∃ seq, d.quantum.Serial seq := by
  induction h
  case empty =>
    have none : Dag.empty.quantum = {} := by simp [quantum, Graph.quantum, Dag.empty]
    exact ⟨[], none ▸ .empty .logical⟩
  case addQubit d q _ hi =>
    have ⟨seq, serial⟩ := hi
    exact ⟨seq, d.quantum_addWire_qubit q ▸ serial.addWire (.qubit q)⟩
  case addClbit c _ hi =>
    have ⟨seq, serial⟩ := hi
    exact quantum_addWire_clbit serial c
  case apply eq hi =>
    have ⟨seq, serial⟩ := hi
    have ⟨_, _, serial'⟩ := serial.of_append (by exact .nil) (quantum_apply eq)
    exact ⟨_, serial'⟩
  case removeOp eq hi =>
    have ⟨seq, serial⟩ := hi
    have ⟨_, _, _, _, serial'⟩ := serial.of_removeOp (quantum_removeOp eq)
    exact ⟨_, serial'⟩
  case substitute is _ _ _ eq hi =>
    have ⟨seq, serial⟩ := hi
    have once : ∀ j ∈ is.map Instruction.blank, j.clbits.Nodup :=
      List.forall_mem_map.mpr fun _ _ => .nil
    have ⟨_, _, _, _, _, _, _, _, _, serial'⟩ := serial.of_substitute once (quantum_substitute eq)
    exact ⟨_, serial'⟩
  case setLevel level _ hi =>
    have ⟨seq, serial⟩ := hi
    exact ⟨seq, serial.setLevel level⟩

end Dag

end CircuitRouting
