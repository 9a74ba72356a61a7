import CircuitRouting.Dag.Edit
import CircuitRouting.Proofs.Graph.Slots
import CircuitRouting.Proofs.Hops
import CircuitRouting.Proofs.Keyed

/-!
# Wires laid through a circuit graph

A graph is laid along given paths if each wire leads from its input through the operations of its
path to its output, and there are no other edges. The nodes before and after a node on a wire are then
its neighbours on the path.
-/

namespace CircuitRouting

namespace Graph

variable {g : Graph} {n t s : Nat} {w : Wire}

theorem mem_edges_of_successor? (h : g.successor? n w = some t) : ⟨n, t, w⟩ ∈ g.edges := by
  have ⟨x, found, target⟩ := Option.map_eq_some_iff.mp h
  have here := List.find?_some found
  simp only [Bool.and_eq_true, beq_iff_eq] at here
  rw [← here.1, ← here.2, ← target]
  exact List.mem_of_find?_eq_some found

theorem mem_edges_of_predecessor? (h : g.predecessor? n w = some s) : ⟨s, n, w⟩ ∈ g.edges := by
  have ⟨x, found, source⟩ := Option.map_eq_some_iff.mp h
  have here := List.find?_some found
  simp only [Bool.and_eq_true, beq_iff_eq] at here
  rw [← here.1, ← here.2, ← source]
  exact List.mem_of_find?_eq_some found

theorem successor?_eq_some_iff
    (unique : ∀ x ∈ g.edges, ∀ y ∈ g.edges, x.source = n → y.source = n → x.wire = y.wire → x = y) :
    g.successor? n w = some t ↔ ⟨n, t, w⟩ ∈ g.edges := by
  refine ⟨mem_edges_of_successor?, fun mem => Option.map_eq_some_iff.mpr ⟨⟨n, t, w⟩, ?_, rfl⟩⟩
  refine find?_eq_some_of_only mem (by simp) fun x hx here => ?_
  simp only [Bool.and_eq_true, beq_iff_eq] at here
  exact unique x hx _ mem here.1 rfl here.2

theorem predecessor?_eq_some_iff
    (unique : ∀ x ∈ g.edges, ∀ y ∈ g.edges, x.target = n → y.target = n → x.wire = y.wire → x = y) :
    g.predecessor? n w = some s ↔ ⟨s, n, w⟩ ∈ g.edges := by
  refine ⟨mem_edges_of_predecessor?, fun mem => Option.map_eq_some_iff.mpr ⟨⟨s, n, w⟩, ?_, rfl⟩⟩
  refine find?_eq_some_of_only mem (by simp) fun x hx here => ?_
  simp only [Bool.and_eq_true, beq_iff_eq] at here
  exact unique x hx _ mem here.1 rfl here.2

end Graph

namespace Dag

variable {d : Dag} {path : Wire → List Nat} {e e' : WireEnds} {n m : Nat} {w : Wire}

theorem hasWire_iff : d.hasWire w ↔ ∃ e ∈ d.wires, e.wire = w := by
  simp [hasWire, ends?]

theorem instruction?_eq : d.instruction? n = (d.node? n).bind Node.instruction? :=
  rfl

theorem instruction?_eq_some_iff {i : Instruction} :
    d.instruction? n = some i ↔ d.node? n = some (.op i) :=
  Graph.instruction?_eq_some_iff

theorem isSome_of_instruction? (h : (d.instruction? n).isSome) : (d.graph.node? n).isSome := by
  have ⟨i, hi⟩ := Option.isSome_iff_exists.mp h
  have node : d.graph.node? n = some (.op i) := instruction?_eq_some_iff.mp hi
  rw [node]
  rfl

-- A wire that is listed once is found.
theorem ends?_of_mem (nodup : (d.wires.map WireEnds.wire).Nodup) (he : e ∈ d.wires) :
    d.ends? e.wire = some e :=
  (find?_key_eq_some_iff nodup).mpr ⟨he, rfl⟩

-- The nodes on a wire, of operations in a given order.
def onWire (w : Wire) (seq : List (Nat × Instruction)) : List Nat :=
  (seq.filter fun x => x.2.wires.contains w).map Prod.fst

-- The nodes of a wire from its input to its output.
def track (path : Wire → List Nat) (e : WireEnds) : List Nat :=
  e.input :: (path e.wire ++ [e.output])

-- The wires of the graph follow the paths, and nothing else is joined.
structure Laid (d : Dag) (path : Wire → List Nat) : Prop where
  tidy : d.graph.Tidy
  wires : (d.wires.map WireEnds.wire).Nodup
  input : ∀ e ∈ d.wires, d.node? e.input = some (.input e.wire)
  output : ∀ e ∈ d.wires, d.node? e.output = some (.output e.wire)
  inputs : ∀ n w, d.node? n = some (.input w) → ∃ e ∈ d.wires, e.wire = w ∧ e.input = n
  outputs : ∀ n w, d.node? n = some (.output w) → ∃ e ∈ d.wires, e.wire = w ∧ e.output = n
  ops : ∀ e ∈ d.wires, ∀ n ∈ path e.wire, (d.instruction? n).isSome
  nodup : ∀ e ∈ d.wires, (path e.wire).Nodup
  front : ∀ e ∈ d.wires, e.front = lastFrom e.input (path e.wire)
  edges_nodup : d.graph.edges.Nodup
  mem_edges : ∀ x, x ∈ d.graph.edges ↔
    ∃ e ∈ d.wires, e.wire = x.wire ∧ (x.source, x.target) ∈ hops (track path e)

namespace Laid

theorem congr {path' : Wire → List Nat} (h : d.Laid path)
    (eq : ∀ e ∈ d.wires, path e.wire = path' e.wire) : d.Laid path' where
  tidy := h.tidy
  wires := h.wires
  input := h.input
  output := h.output
  inputs := h.inputs
  outputs := h.outputs
  ops e he := eq e he ▸ h.ops e he
  nodup e he := eq e he ▸ h.nodup e he
  front e he := eq e he ▸ h.front e he
  edges_nodup := h.edges_nodup
  mem_edges x := by
    simp only [h.mem_edges, track]
    exact exists_congr fun e => and_congr_right fun he => by rw [eq e he]

-- A wire is listed once.
theorem ends_unique (h : d.Laid path) (he : e ∈ d.wires) (he' : e' ∈ d.wires)
    (eq : e.wire = e'.wire) : e = e' :=
  List.inj_on_of_nodup_map h.wires he he' eq

theorem ends?_eq (h : d.Laid path) (he : e ∈ d.wires) : d.ends? e.wire = some e :=
  ends?_of_mem h.wires he

theorem ne_input (h : d.Laid path) (he : e ∈ d.wires) (op : (d.instruction? n).isSome) :
    n ≠ e.input := by
  rintro rfl
  rw [instruction?_eq, h.input e he] at op
  contradiction

theorem ne_output (h : d.Laid path) (he : e ∈ d.wires) (op : (d.instruction? n).isSome) :
    n ≠ e.output := by
  rintro rfl
  rw [instruction?_eq, h.output e he] at op
  contradiction

theorem input_ne_output (h : d.Laid path) (he : e ∈ d.wires) (he' : e' ∈ d.wires) :
    e.input ≠ e'.output := by
  intro eq
  have := h.input e he
  simp [eq, h.output e' he'] at this

theorem track_nodup (h : d.Laid path) (he : e ∈ d.wires) : (track path e).Nodup := by
  have input : e.input ∉ path e.wire := fun hn => h.ne_input he (h.ops e he _ hn) rfl
  have output : ∀ n ∈ path e.wire, n ≠ e.output := fun n hn => h.ne_output he (h.ops e he n hn)
  simp only [track, List.nodup_cons, List.mem_append, List.mem_singleton, not_or,
    List.nodup_append, ne_eq, forall_eq]
  exact ⟨⟨input, h.input_ne_output he he⟩, h.nodup e he, by simp, output⟩

-- The ends of a wire are no operations.
theorem mem_track_iff (h : d.Laid path) (he : e ∈ d.wires) (op : (d.instruction? n).isSome) :
    n ∈ track path e ↔ n ∈ path e.wire := by
  simp [track, h.ne_input he op, h.ne_output he op]

theorem mem_edges_iff (h : d.Laid path) (he : e ∈ d.wires) :
    ⟨n, m, e.wire⟩ ∈ d.graph.edges ↔ (n, m) ∈ hops (track path e) := by
  rw [h.mem_edges]
  constructor
  case mp =>
    intro ⟨e', he', eq, mem⟩
    exact h.ends_unique he' he eq ▸ mem
  case mpr => exact fun mem => ⟨e, he, rfl, mem⟩

theorem source_unique (h : d.Laid path) :
    ∀ x ∈ d.graph.edges, ∀ y ∈ d.graph.edges, x.source = y.source → x.wire = y.wire → x = y := by
  intro ⟨s, t, w⟩ hx ⟨s', t', w'⟩ hy source wire
  cases source
  cases wire
  have ⟨e, he, hw, _⟩ := (h.mem_edges _).mp hx
  cases hw
  rw [hops_right_unique (h.track_nodup he) ((h.mem_edges_iff he).mp hx) ((h.mem_edges_iff he).mp hy)]

theorem target_unique (h : d.Laid path) :
    ∀ x ∈ d.graph.edges, ∀ y ∈ d.graph.edges, x.target = y.target → x.wire = y.wire → x = y := by
  intro ⟨s, t, w⟩ hx ⟨s', t', w'⟩ hy target wire
  cases target
  cases wire
  have ⟨e, he, hw, _⟩ := (h.mem_edges _).mp hx
  cases hw
  rw [hops_left_unique (h.track_nodup he) ((h.mem_edges_iff he).mp hx) ((h.mem_edges_iff he).mp hy)]

theorem successor?_eq_some_iff (h : d.Laid path) (he : e ∈ d.wires) :
    d.successor? n e.wire = some m ↔ (n, m) ∈ hops (track path e) :=
  (Graph.successor?_eq_some_iff fun x hx y hy hs hs' =>
    h.source_unique x hx y hy (hs.trans hs'.symm)).trans (h.mem_edges_iff he)

theorem predecessor?_eq_some_iff (h : d.Laid path) (he : e ∈ d.wires) :
    d.predecessor? n e.wire = some m ↔ (m, n) ∈ hops (track path e) :=
  (Graph.predecessor?_eq_some_iff fun x hx y hy ht ht' =>
    h.target_unique x hx y hy (ht.trans ht'.symm)).trans (h.mem_edges_iff he)

theorem hops_track (e : WireEnds) :
    hops (track path e) =
      hops (e.input :: path e.wire) ++ [(lastFrom e.input (path e.wire), e.output)] := by
  rw [track, hops_cons_concat]

-- The ends of the wires stay; what changes are the fronts, the paths and the edges.
theorem revise {d' : Dag} {path' : Wire → List Nat} (h : d.Laid path) (front : WireEnds → Nat)
    (tidy : d'.graph.Tidy)
    (wires : d'.wires = d.wires.map fun e => { e with front := front e })
    (input : ∀ n w, d'.node? n = some (.input w) ↔ d.node? n = some (.input w))
    (output : ∀ n w, d'.node? n = some (.output w) ↔ d.node? n = some (.output w))
    (ops : ∀ e ∈ d.wires, ∀ n ∈ path' e.wire, (d'.instruction? n).isSome)
    (nodup : ∀ e ∈ d.wires, (path' e.wire).Nodup)
    (fronts : ∀ e ∈ d.wires, front e = lastFrom e.input (path' e.wire))
    (edges_nodup : d'.graph.edges.Nodup)
    (mem_edges : ∀ x, x ∈ d'.graph.edges ↔
      ∃ e ∈ d.wires, e.wire = x.wire ∧ (x.source, x.target) ∈ hops (track path' e)) :
    d'.Laid path' := by
  have mem : ∀ p : WireEnds → Prop,
      (∀ e ∈ d'.wires, p e) ↔ ∀ e ∈ d.wires, p { e with front := front e } := by
    simp [wires]
  refine ⟨tidy, ?_, ?_, ?_, ?_, ?_, ?_, ?_, ?_, edges_nodup, ?_⟩
  case refine_1 => simpa [wires, Function.comp_def] using h.wires
  case refine_2 => exact (mem _).mpr fun e he => (input _ _).mpr (h.input e he)
  case refine_3 => exact (mem _).mpr fun e he => (output _ _).mpr (h.output e he)
  case refine_4 =>
    intro n w hn
    have ⟨e, he, hw, hi⟩ := h.inputs n w ((input n w).mp hn)
    exact ⟨{ e with front := front e }, wires ▸ List.mem_map_of_mem he, hw, hi⟩
  case refine_5 =>
    intro n w hn
    have ⟨e, he, hw, ho⟩ := h.outputs n w ((output n w).mp hn)
    exact ⟨{ e with front := front e }, wires ▸ List.mem_map_of_mem he, hw, ho⟩
  case refine_6 => exact (mem _).mpr ops
  case refine_7 => exact (mem _).mpr nodup
  case refine_8 => exact (mem _).mpr fronts
  case refine_9 =>
    intro x
    simp only [mem_edges, wires, List.mem_map, exists_exists_and_eq_and]
    rfl

end Laid

end Dag

end CircuitRouting
