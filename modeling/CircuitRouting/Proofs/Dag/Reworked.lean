import CircuitRouting.Proofs.Dag.Woven
import CircuitRouting.Proofs.Simplification
import Mathlib.Algebra.Order.BigOperators.Group.List
import Mathlib.Algebra.Order.Group.Nat

/-!
# Graphs reworked by revisions

In a graph that edits lead to and that passes the checks, operations without classical bits are revised
one after the other. No revision fails. On the wire of each qubit what is written stands where the
revised operation stood; the classical wires lead where they led; and the other operations keep their
numbers and their order.
-/

namespace CircuitRouting

-- What is left out gives nothing.
theorem flatMap_filter {α β : Type} {p : α → Bool} {f : α → List β} {l : List α}
    (h : ∀ x ∈ l, p x = false → f x = []) : (l.filter p).flatMap f = l.flatMap f := by
  induction l
  case nil => rfl
  case cons x l hi =>
    have ⟨here, later⟩ := List.forall_mem_cons.mp h
    cases hp : p x
    case true => rw [List.filter_cons_of_pos hp, List.flatMap_cons, hi later, List.flatMap_cons]
    case false => rw [List.filter_cons_of_neg (by simp [hp]), hi later, List.flatMap_cons, here hp,
      List.nil_append]

namespace Wiring

variable {x : Wiring} {w : Wire} {fuel k : Nat} {next : Option Nat}

-- With less fuel the same wire is followed, only not so far.
theorem opsFrom_eq_take (le : k ≤ fuel) : x.opsFrom w k next = (x.opsFrom w fuel next).take k := by
  induction k generalizing fuel next
  case zero => cases next <;> simp [opsFrom]
  case succ k hi =>
    cases fuel
    case zero => simp at le
    case succ fuel =>
      cases next
      case none => simp [opsFrom]
      case some n =>
        rw [opsFrom, opsFrom]
        split
        case isTrue => rw [List.take_succ_cons, hi (Nat.le_of_succ_le_succ le)]
        case isFalse => rfl

-- Fuel above all numbers on the wire is enough.
theorem opsFrom_eq_of_lt (nodup : (x.opsFrom w fuel next).Nodup)
    (lt : ∀ m ∈ x.opsFrom w fuel next, m < k) (le : k ≤ fuel) :
    x.opsFrom w k next = x.opsFrom w fuel next := by
  have inside : x.opsFrom w fuel next ⊆ List.range k := fun m hm => List.mem_range.mpr (lt m hm)
  have len := (nodup.subperm inside).length_le
  rw [List.length_range] at len
  rw [opsFrom_eq_take le, List.take_of_length_le len]

end Wiring

namespace Dag

variable {d d₁ d' : Dag} {n m q c fuel output : Nat} {w : Wire} {i : Instruction} {e : WireEnds}
  {seq fresh : List (Nat × Instruction)} {revs : List Revision}

section Checked

-- In a topological order of all nodes each wire leads forward.
theorem pairwise_opsFrom (complete : d.order.length = d.graph.nodes.length) (w : Wire) (fuel n : Nat) :
    (n :: d.wiring.opsFrom w fuel (d.wiring.successor? n w)).Pairwise
      (d.order.idxOf · < d.order.idxOf ·) := by
  induction fuel generalizing n
  case zero => simp [Wiring.opsFrom]
  case succ fuel hi =>
    cases next : d.wiring.successor? n w
    case none => simp [Wiring.opsFrom]
    case some m =>
      rw [Wiring.opsFrom]
      split
      case isFalse => simp
      case isTrue op =>
        rw [wiring, Graph.wiring_successor?] at next
        have node : m ∈ d.order := (mem_order_of_length complete).mpr (isSome_of_instruction? op)
        have lt := (idxOf_order_lt (Graph.mem_edges_of_successor? next) node).2
        have rest := hi m
        refine List.pairwise_cons.mpr ⟨List.forall_mem_cons.mpr ⟨lt, fun k hk => ?_⟩, rest⟩
        exact lt.trans ((List.pairwise_cons.mp rest).1 k hk)

theorem nodup_opsFrom (complete : d.order.length = d.graph.nodes.length) (w : Wire) (fuel n : Nat) :
    (d.wiring.opsFrom w fuel (d.wiring.successor? n w)).Nodup :=
  (List.pairwise_cons.mp (pairwise_opsFrom complete w fuel n)).2.imp fun lt eq => by simp [eq] at lt

theorem defectFrom?_of_verify (ok : d.verify = .ok ()) (he : e ∈ d.wires) :
    d.wiring.defectFrom? e.wire e.output d.graph.nodes.length e.input = none := by
  rw [verify] at ok
  obtain ⟨_, ok⟩ := refuse_eq_ok_iff.mp ok
  obtain ⟨_, checked, _⟩ := bind_eq_ok_iff.mp ok
  have none : d.wireDefects = [] := by
    rw [checkWires] at checked
    split at checked
    case h_1 eq => exact eq
    case h_2 => contradiction
  simpa using List.filterMap_eq_nil_iff.mp none e he

-- A wire that leads to a node goes through nodes only.
theorem isSome_of_defectFrom? (complete : d.order.length = d.graph.nodes.length)
    (last : (d.node? output).isSome) (h : d.wiring.defectFrom? w output fuel n = none) :
    (d.node? n).isSome := by
  induction fuel generalizing n
  case zero =>
    rw [Wiring.defectFrom?] at h
    split at h
    case isTrue eq => exact eq ▸ last
    case isFalse => contradiction
  case succ fuel hi =>
    rw [Wiring.defectFrom?] at h
    split at h
    case isTrue eq => exact eq ▸ last
    case isFalse =>
      split at h
      case h_1 => contradiction
      case h_2 m next =>
        rw [wiring, Graph.wiring_successor?] at next
        have node := (mem_order_of_length complete).mpr (hi h)
        exact (mem_order_of_length complete).mp
          (idxOf_order_lt (Graph.mem_edges_of_successor? next) node).1

end Checked

-- The classical wires of two graphs have the same edges, and lead to the same nodes.
structure Alongside (d d' : Dag) : Prop where
  ends : d'.wires.map (fun e => (e.wire, e.input, e.output)) =
    d.wires.map fun e => (e.wire, e.input, e.output)
  edges : d'.graph.edges.filter (!·.wire.isQubit) = d.graph.edges.filter (!·.wire.isQubit)
  nodes : ∀ x ∈ d.graph.edges, x.wire.isQubit = false → (d.node? x.target).isSome →
    d'.node? x.target = d.node? x.target

theorem isQubit_of_mem_wires (bare : i.clbits = []) (hw : w ∈ i.wires) : w.isQubit := by
  rw [Instruction.wires, bare, List.map_nil, List.append_nil] at hw
  obtain ⟨q, _, eq⟩ := List.mem_map.mp hw
  exact eq ▸ rfl

namespace Alongside

theorem refl (d : Dag) : d.Alongside d :=
  ⟨rfl, rfl, fun _ _ _ _ => rfl⟩

-- An operation without classical bits that no classical wire touches may be exchanged.
theorem exchange (h : d.Alongside d₁) (ex : d₁.Exchanged n i fresh d') (bare : i.clbits = [])
    (apart : ∀ x ∈ d.graph.edges, x.source = n ∨ x.target = n → x.wire.isQubit) :
    d.Alongside d' := by
  refine ⟨ex.ends.trans h.ends, ?_, fun x hx clbit node => ?_⟩
  case refine_1 =>
    obtain ⟨new, edges, on⟩ := ex.adds
    have none : new.filter (!·.wire.isQubit) = [] :=
      List.filter_eq_nil_iff.mpr fun x hx => by simpa using isQubit_of_mem_wires bare (on x hx)
    have around : ∀ x ∈ d.graph.edges.filter (!·.wire.isQubit), x.source != n && x.target != n := by
      intro x hx
      obtain ⟨mem, clbit⟩ := List.mem_filter.mp hx
      have off : ¬(x.source = n ∨ x.target = n) := fun touch => by simp [apart x mem touch] at clbit
      simpa using not_or.mp off
    rw [edges, List.filter_append, none, List.nil_append, Graph.remove]
    simp only
    rw [List.filter_comm, h.edges, List.filter_eq_self.mpr around]
  case refine_2 =>
    have ne : x.target ≠ n := fun eq => by simp [apart x hx (.inr eq)] at clbit
    have same := h.nodes x hx clbit node
    obtain ⟨y, hy⟩ := Option.isSome_iff_exists.mp node
    rw [hy, ex.replaced.node?_of_ne (same.trans hy) ne]

theorem successor? (h : d.Alongside d') (n c : Nat) :
    d'.successor? n (.clbit c) = d.successor? n (.clbit c) := by
  have found : ∀ g : Graph, g.successor? n (.clbit c) =
      ((g.edges.filter (!·.wire.isQubit)).find?
        fun x => x.source == n && x.wire == .clbit c).map Edge.target := by
    intro g
    rw [find?_filter_of_imp fun x _ here => ?_, Graph.successor?]
    simp only [Bool.and_eq_true, beq_iff_eq] at here
    simp [here.2]
  rw [Dag.successor?, Dag.successor?, found, found, h.edges]

theorem instruction? (h : d.Alongside d') (next : d.successor? n (.clbit c) = some m)
    (node : (d.node? m).isSome) : d'.instruction? m = d.instruction? m := by
  have same := h.nodes _ (Graph.mem_edges_of_successor? next) rfl node
  rw [instruction?_eq, instruction?_eq, same]

-- Before its end a classical wire leads to the same operations.
theorem opsFrom (h : d.Alongside d') (complete : d.order.length = d.graph.nodes.length)
    {v : Wire} (last : d.node? output = some (.output v)) {k : Nat}
    (chain : d.wiring.defectFrom? (.clbit c) output k n = none) (ne : n ≠ output) :
    d'.wiring.opsFrom (.clbit c) fuel (d'.wiring.successor? n (.clbit c)) =
      d.wiring.opsFrom (.clbit c) fuel (d.wiring.successor? n (.clbit c)) := by
  induction fuel generalizing n k
  case zero => rfl
  case succ fuel hi =>
    have same : d'.wiring.successor? n (.clbit c) = d.wiring.successor? n (.clbit c) := by
      simp only [wiring, Graph.wiring_successor?]
      exact h.successor? n c
    cases k
    case zero => simp [Wiring.defectFrom?, ne] at chain
    case succ k =>
      rw [Wiring.defectFrom?, if_neg ne] at chain
      split at chain
      case h_1 => contradiction
      case h_2 m next =>
        have node := isSome_of_defectFrom? complete (Option.isSome_of_mem last) chain
        have op : d'.wiring.instruction? m = d.wiring.instruction? m :=
          h.instruction? ((d.graph.wiring_successor? n _).symm.trans next) node
        rw [same, next, Wiring.opsFrom, Wiring.opsFrom, op]
        split
        case isFalse => rfl
        case isTrue isOp =>
          have inner : m ≠ output := by
            rintro rfl
            simp [wiring, Graph.wiring, Wiring.instruction?, Graph.instruction?, Node.instruction?,
              show d.graph.node? m = _ from last] at isOp
          rw [hi chain inner]

theorem wireOps (h : d.Alongside d') (reachable : d.Reachable) (ok : d.verify = .ok ()) (c : Nat) :
    d'.wireOps (.clbit c) = d.wireOps (.clbit c) := by
  have input : (d'.ends? (.clbit c)).map WireEnds.input = (d.ends? (.clbit c)).map WireEnds.input :=
    map_input_of_ends h.ends
  have complete := length_order_of_verify ok
  rw [Dag.wireOps, wireOpsBy, Dag.wireOps, wireOpsBy]
  cases ends : d.ends? (.clbit c) <;> cases ends' : d'.ends? (.clbit c) <;>
    simp only [ends, ends', Option.map_some, Option.map_none, reduceCtorEq, Option.some.injEq] at input
  case none.none => rfl
  case some.some e _ =>
    have he := List.mem_of_find?_eq_some ends
    have wire : e.wire = .clbit c := by simpa using List.find?_some ends
    have last := reachable.ended.output e he
    have ne : e.input ≠ e.output := fun eq => by
      have first := reachable.ended.input e he
      simp [eq, last] at first
    have chain := wire ▸ defectFrom?_of_verify ok he
    let fuel := max d.graph.slots.size d'.graph.slots.size
    let ops := d.wiring.opsFrom (.clbit c) fuel (d.wiring.successor? e.input (.clbit c))
    have nodup : ops.Nodup := nodup_opsFrom complete (.clbit c) fuel e.input
    have inside : ∀ m ∈ ops, m < d.graph.slots.size ∧ m < d'.graph.slots.size := by
      intro m hm
      have op : (d.instruction? m).isSome := Wiring.isSome_of_mem_opsFrom hm
      obtain ⟨k, next⟩ := Wiring.exists_of_mem_opsFrom hm
      have same := h.instruction? ((d.graph.wiring_successor? k _).symm.trans next)
        (isSome_of_instruction? op)
      exact ⟨d.graph.lt_size_of_isSome (isSome_of_instruction? op),
        d'.graph.lt_size_of_isSome (isSome_of_instruction? (same ▸ op))⟩
    dsimp only
    rw [input, h.opsFrom complete last chain ne,
      Wiring.opsFrom_eq_of_lt nodup (fun m hm => (inside m hm).1) (Nat.le_max_left ..),
      Wiring.opsFrom_eq_of_lt nodup (fun m hm => (inside m hm).2) (Nat.le_max_right ..)]

theorem wireInstructions (h : d.Alongside d') (reachable : d.Reachable) (ok : d.verify = .ok ())
    (c : Nat) : d'.wireInstructions (.clbit c) = d.wireInstructions (.clbit c) := by
  rw [Dag.wireInstructions, Dag.wireInstructions, h.wireOps reachable ok]
  refine List.filterMap_congr fun m hm => ?_
  rw [Dag.wireOps, wireOpsBy] at hm
  split at hm
  case h_1 => simp at hm
  case h_2 =>
    have op : (d.instruction? m).isSome := Wiring.isSome_of_mem_opsFrom hm
    obtain ⟨k, next⟩ := Wiring.exists_of_mem_opsFrom hm
    exact h.instruction? ((d.graph.wiring_successor? k _).symm.trans next) (isSome_of_instruction? op)

end Alongside

-- A graph in which the operations of another have been exchanged.
structure Reworked (d : Dag) (seq : List (Nat × Instruction)) (d' : Dag)
    (seq' : List (Nat × Instruction)) : Prop where
  spun : d'.Spun seq'
  alongside : d.Alongside d'
  count : d'.graph.nodes.length + seq.length = d.graph.nodes.length + seq'.length

-- Operations of the graph without classical bits can be revised, whatever has been revised before.
theorem Woven.revisable (h : d.Woven seq) :
    Revisable (fun x => d.instruction? x.1 = some x.2 ∧ x.2.clbits = []) (d.Reworked seq) where
  lists h' := h'.spun.toLists
  revise {d₁ l r i rev} h' ok fits := by
    have done : ∀ fresh d', d₁.Exchanged rev.node i fresh d' →
        d.Reworked seq d' (l ++ fresh ++ r) := by
      intro fresh d' ex
      have len := ex.replaced.length_nodes (isSome_of_instruction? (Option.isSome_of_mem ex.found))
      have count := h'.count
      refine ⟨h'.spun.exchange ex, h'.alongside.exchange ex ok.2 (h.apart rev.node i ok.1 ok.2), ?_⟩
      simp only [List.length_append, List.length_cons] at count ⊢
      omega
    cases rev
    case replace n is =>
      have ⟨fresh, d', eq, snd, ex⟩ := h'.spun.substitute ok.2 (fun j hj => (fits j hj).1.toFits)
        fun j hj => (fits j hj).2
      exact ⟨fresh, d', map_eq_ok_iff.mpr ⟨_, eq, rfl⟩, snd, ex.replaced, done fresh d' ex⟩
    case remove n =>
      have ⟨d', eq, ex⟩ := h'.spun.removeOp ok.2
      exact ⟨[], d', map_eq_ok_iff.mpr ⟨_, eq, rfl⟩, rfl, ex.replaced, done [] d' ex⟩

-- The operations with a property keep their numbers, and their order on each wire.
structure Keeps (d : Dag) (p : Instruction → Bool) (d' : Dag) : Prop where
  instruction? : ∀ n i, d.instruction? n = some i → p i → d'.instruction? n = some i
  order : ∀ w, (d'.wireOps w).filter (fun n => (d.instruction? n).any p) =
    (d.wireOps w).filter fun n => (d.instruction? n).any p

-- What revisions make of a graph.
structure Revises (d : Dag) (revs : List Revision) (d' : Dag) : Prop where
  ops : ∀ n j, d'.instruction? n = some j → ∃ m i, d.instruction? m = some i ∧ j ∈ revised revs (m, i)
  qubit : ∀ q, d'.wireInstructions (.qubit q) =
    (d.opsAt (d.wireOps (.qubit q))).flatMap fun x => (revised revs x).filter (q ∈ ·.qubits)
  clbit : ∀ c, d'.wireInstructions (.clbit c) = d.wireInstructions (.clbit c)
  keeps : ∀ p, (∀ n i, d.instruction? n = some i → p i → n ∉ revs.map Revision.node) → d.Keeps p d'
  numOps : (∀ n i, d.instruction? n = some i → (revised revs (n, i)).length ≤ 1) →
    d'.numOps ≤ d.numOps

-- A graph that edits lead to, that passes the checks and in which only measurements have classical
-- operands.
structure Tame (d : Dag) : Prop where
  reachable : d.Reachable
  verified : d.verify = .ok ()
  plain : ∀ n i, d.instruction? n = some i → i.Plain

theorem Tame.exists_woven (h : d.Tame) : ∃ seq, d.Woven seq ∧ ∀ x ∈ seq, x.2.Plain := by
  have ⟨seq, woven⟩ := h.reachable.exists_woven h.verified
  exact ⟨seq, woven, fun x hx => h.plain x.1 x.2 ((woven.mem_iff _ _).mp hx)⟩

theorem tame_edited {edits : List Edit} (once : ∀ edit ∈ edits, edit.Once)
    (verified : (edited edits).verify = .ok ()) (plain : ∀ x ∈ (edited edits).opNodes, x.2.Plain) :
    (edited edits).Tame :=
  ⟨reachable_edited once, verified, fun n i hi => plain (n, i) (mem_opNodes_iff.mpr hi)⟩

section Wires

variable {f : Nat × Instruction → List (Nat × Instruction)}

theorem mem_wires_of_revised {j : Instruction}
    (valid : ∀ rev ∈ revs, ∃ i, d.instruction? rev.node = some i ∧ i.clbits = [] ∧ rev.Fits d i)
    (found : d.instruction? n = some i) (hj : j ∈ revised revs (n, i)) :
    ∀ w ∈ j.wires, w ∈ i.wires := by
  rw [revised] at hj
  split at hj
  case h_1 rev hr =>
    obtain ⟨i', found', _, fits⟩ := valid rev (List.mem_of_find?_eq_some hr)
    have node : rev.node = n := by simpa using List.find?_some hr
    rw [node, found, Option.some.injEq] at found'
    exact found' ▸ (fits j hj).2
  case h_2 =>
    cases List.mem_singleton.mp hj
    exact fun _ => id

-- On a qubit, what is written stands where the revised operation stood.
theorem wireInstructions_flatMap (h : d.Reads seq) (h' : d'.Reads (seq.flatMap f))
    (written : ∀ x ∈ seq, (f x).map Prod.snd = revised revs x)
    (allowed : ∀ x ∈ seq, ∀ j ∈ revised revs x, ∀ w ∈ j.wires, w ∈ x.2.wires) (q : Nat) :
    d'.wireInstructions (.qubit q) =
      (d.opsAt (d.wireOps (.qubit q))).flatMap fun x => (revised revs x).filter (q ∈ ·.qubits) := by
  rw [h'.wireInstructions_qubit, h.opsAt_wireOps, List.filter_flatMap, List.map_flatMap]
  refine (List.flatMap_congr fun x hx => ?_).trans (flatMap_filter fun x hx off => ?_).symm
  case refine_1 =>
    rw [← written x hx, List.filter_map]
    rfl
  case refine_2 =>
    refine List.filter_eq_nil_iff.mpr fun j hj on => ?_
    have := allowed x hx j hj (.qubit q) (by simpa [Instruction.wires] using on)
    simp only [decide_eq_false_iff_not] at off
    exact off (by simpa [Instruction.wires] using this)

-- Where only the operations without the property are revised, the others keep their places.
theorem keeps_of_renews {p : Instruction → Bool} (h : d.Reads seq) (h' : d'.Reads (seq.flatMap f))
    (renews : ∀ x ∈ seq, d.Renews revs x (f x)) (clbit : ∀ c, d'.wireOps (.clbit c) = d.wireOps (.clbit c))
    (kept : ∀ n i, d.instruction? n = some i → p i → n ∉ revs.map Revision.node) : d.Keeps p d' := by
  have out : ∀ n ∈ revs.map Revision.node, (d.instruction? n).any p = false := by
    intro n hn
    cases found : d.instruction? n
    case none => rfl
    case some i =>
      rw [Option.any_some]
      exact Bool.eq_false_iff.mpr fun hp => kept n i found hp hn
  refine ⟨fun n i found hp => ?_, fun w => ?_⟩
  case refine_1 =>
    have mem := (h.mem_iff n i).mpr found
    have stays := (renews _ mem).stays (kept n i found hp)
    exact (h'.mem_iff n i).mp (List.mem_flatMap.mpr ⟨_, mem, by simp [stays]⟩)
  case refine_2 =>
    cases w
    case clbit c => rw [clbit]
    case qubit q =>
      rw [h'.wireOps, h.wireOps]
      have one : ∀ x ∈ seq, (onWire (.qubit q) (f x)).filter (fun n => (d.instruction? n).any p) =
          (onWire (.qubit q) [x]).filter fun n => (d.instruction? n).any p := by
        intro x hx
        by_cases node : x.1 ∈ revs.map Revision.node
        case neg => rw [(renews x hx).stays node]
        case pos =>
          -- Neither the revised operation nor what takes its place has a number that is kept.
          have none : ∀ ys : List (Nat × Instruction),
              (∀ y ∈ ys, y.1 ∈ revs.map Revision.node ∨ d.instruction? y.1 = .none) →
              (onWire (.qubit q) ys).filter (fun n => (d.instruction? n).any p) = [] := by
            intro ys hy
            refine List.filter_eq_nil_iff.mpr fun n hn => ?_
            have ⟨i, mem, _⟩ := mem_onWire.mp hn
            cases hy _ mem
            case inl mem => simp [out n mem]
            case inr free => simp [show d.instruction? n = .none from free]
          rw [none _ ((renews x hx).fresh node), none [x] fun y hy => .inl (List.mem_singleton.mp hy ▸ node)]
      rw [onWire_flatMap, List.filter_flatMap, List.flatMap_congr one, ← List.filter_flatMap,
        ← onWire_flatMap, List.flatMap_singleton']

end Wires

theorem Tame.reviseAll (h : d.Tame) (nodup : (revs.map Revision.node).Nodup)
    (valid : ∀ rev ∈ revs, ∃ i, d.instruction? rev.node = some i ∧ i.clbits = [] ∧ rev.Fits d i) :
    ∃ d', reviseAll revs d = (.ok (), d') ∧ d.Revises revs d' := by
  obtain ⟨seq, woven, _⟩ := h.exists_woven
  obtain ⟨d', f, eq, alike, re, renews⟩ := woven.revisable.reviseAll ⟨woven.spun, .refl d, rfl⟩ nodup
    fun rev hr =>
      have ⟨i, found, bare, fits⟩ := valid rev hr
      ⟨i, (woven.mem_iff _ _).mpr found, ⟨found, bare⟩, fits⟩
  have found : ∀ x ∈ seq, d.instruction? x.1 = some x.2 := fun x hx => (woven.mem_iff _ _).mp hx
  have written : ∀ x ∈ seq, (f x).map Prod.snd = revised revs x := fun x hx => (renews x hx).written
  refine ⟨d', eq, fun n j hj => ?_, ?_, ?_, fun p kept => ?_, fun single => ?_⟩
  case refine_1 =>
    obtain ⟨x, hx, hj⟩ := List.mem_flatMap.mp ((re.spun.mem_iff n j).mpr hj)
    exact ⟨x.1, x.2, found x hx, written x hx ▸ List.mem_map_of_mem hj⟩
  case refine_2 =>
    exact wireInstructions_flatMap woven.reads re.spun.reads written fun x hx j hj =>
      mem_wires_of_revised valid (found x hx) hj
  case refine_3 => exact re.alongside.wireInstructions h.reachable h.verified
  case refine_4 =>
    exact keeps_of_renews woven.reads re.spun.reads renews
      (re.alongside.wireOps h.reachable h.verified) kept
  case refine_5 =>
    have le : (seq.flatMap f).length ≤ seq.length := by
      have each : ∀ k ∈ seq.map fun x => (f x).length, k ≤ 1 := by
        refine List.forall_mem_map.mpr fun x hx => ?_
        rw [← List.length_map Prod.snd, written x hx]
        exact single x.1 x.2 (found x hx)
      rw [List.length_flatMap]
      simpa using List.sum_le_card_nsmul _ 1 each
    have wires := congrArg List.length alike.wireNames
    have count := re.count
    simp only [wireNames, List.length_map] at wires
    rw [numOps, numOps, wires]
    omega

end Dag

end CircuitRouting
