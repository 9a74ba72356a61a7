import CircuitRouting.Layers
import CircuitRouting.Proofs.Dag.WireOps
import CircuitRouting.Proofs.Sorted
import Mathlib.Data.List.Pairwise
import Mathlib.Logic.Relation

/-!
# Layers, one after the other

The layers of a circuit graph hold operations only. Where each operation has one edge in and one edge
out for each of its wires, they hold each operation once, behind all operations that it waits for, and
no two operations of a layer are on the same wire. In a graph with a serial order they are, read one
after the other, a serial order again.
-/

namespace CircuitRouting

variable {fuel n : Nat} {waiting : List Pending} {done u v : List Nat} {p : Pending}

@[simp]
theorem Pending.node_release (layer : List Nat) (p : Pending) : (p.release layer).node = p.node :=
  rfl

@[simp]
theorem Pending.releasers_release (layer : List Nat) (p : Pending) :
    (p.release layer).releasers = p.releasers :=
  rfl

theorem Instruction.qubits_of_pair? {i : Instruction} {x : Nat × Nat} (h : i.pair? = some x) :
    i.qubits = [x.1, x.2] := by
  rw [pair?] at h
  split at h
  case h_1 qubits =>
    cases h
    exact qubits
  case h_2 => contradiction

namespace Dag

-- The next layer, and those that wait after it.
def nextLayer (waiting : List Pending) : List Nat :=
  (sortUnique Pending.before (waiting.filter fun p => p.needed == 0)).map Pending.node

def afterLayer (waiting : List Pending) : List Pending :=
  (waiting.filter fun p => p.needed != 0).map (Pending.release (nextLayer waiting))

theorem layersFrom_succ : layersFrom (fuel + 1) waiting =
    if (waiting.filter fun p => p.needed == 0).isEmpty then []
    else nextLayer waiting :: layersFrom fuel (afterLayer waiting) :=
  rfl

theorem mem_nextLayer (h : n ∈ nextLayer waiting) : ∃ p ∈ waiting, p.needed = 0 ∧ p.node = n := by
  have ⟨p, hp, eq⟩ := List.mem_map.mp h
  have hp := List.mem_filter.mp (mem_of_mem_sortUnique hp)
  exact ⟨p, hp.1, by simpa using hp.2, eq⟩

theorem map_node_afterLayer :
    (afterLayer waiting).map Pending.node =
      (waiting.filter fun p => p.needed != 0).map Pending.node := by
  simp [afterLayer, Function.comp_def]

-- If anything is ready, less goes on waiting.
theorem length_afterLayer_lt (some : ¬(waiting.filter fun p => p.needed == 0).isEmpty) :
    (afterLayer waiting).length < waiting.length := by
  have split := List.length_eq_length_filter_add (l := waiting) fun p => p.needed == 0
  have pos : 0 < (waiting.filter fun p => p.needed == 0).length := by
    rw [List.length_pos_iff]
    simpa using some
  simp only [afterLayer, List.length_map, bne]
  omega

-- Layers hold nothing but what waits.
theorem mem_of_mem_layersFrom (h : n ∈ (layersFrom fuel waiting).flatten) :
    n ∈ waiting.map Pending.node := by
  induction fuel generalizing waiting
  case zero => simp [layersFrom] at h
  case succ fuel hi =>
    rw [layersFrom_succ] at h
    split at h
    case isTrue => simp at h
    case isFalse =>
      cases List.mem_append.mp h
      case inl h =>
        have ⟨p, hp, _, eq⟩ := mem_nextLayer h
        exact eq ▸ List.mem_map_of_mem hp
      case inr h =>
        have h := hi h
        rw [map_node_afterLayer] at h
        exact (List.filter_sublist.map _).subset h

-- Operations that wait: all that they wait for, and how much of it is not done.
structure Waiting (done : List Nat) (waiting : List Pending) : Prop where
  nodup : (done ++ waiting.map Pending.node).Nodup
  releasers : ∀ p ∈ waiting, ∀ m ∈ p.releasers, m ∈ done ∨ m ∈ waiting.map Pending.node
  needed : ∀ p ∈ waiting, p.needed = p.releasers.countP fun m => !done.contains m

namespace Waiting

theorem perm_nextLayer (h : Waiting done waiting) :
    (nextLayer waiting).Perm
      ((waiting.filter fun p => p.needed == 0).map Pending.node) := by
  have nodup : (waiting.map Pending.node).Nodup := (List.nodup_append.mp h.nodup).2.1
  refine (sortUnique_perm ?_).map _
  have distinct : waiting.Pairwise fun p q => p.node ≠ q.node := List.pairwise_map.mp nodup
  refine (distinct.filter _).imp fun {p q} ne => ?_
  simp only [Pending.before, pairLt, Bool.or_eq_true, decide_eq_true_eq, Bool.and_eq_true,
    beq_iff_eq]
  omega

-- What is ready and what goes on waiting make up all that waits.
theorem perm_split (h : Waiting done waiting) :
    (nextLayer waiting ++ (afterLayer waiting).map Pending.node).Perm
      (waiting.map Pending.node) := by
  rw [map_node_afterLayer]
  refine (h.perm_nextLayer.append_right _).trans ?_
  rw [← List.map_append]
  exact (List.filter_append_perm (fun p => p.needed == 0) waiting).map _

theorem next (h : Waiting done waiting) :
    Waiting (done ++ nextLayer waiting) (afterLayer waiting) := by
  have split := h.perm_split
  have nodup : (done ++ (nextLayer waiting ++ (afterLayer waiting).map Pending.node)).Nodup :=
    (split.append_left done).nodup_iff.mpr h.nodup
  refine ⟨by rwa [List.append_assoc], fun p hp m hm => ?_, fun p hp => ?_⟩
  case refine_1 =>
    have ⟨q, hq, eq⟩ := List.mem_map.mp hp
    subst eq
    have := h.releasers q (List.mem_filter.mp hq).1 m hm
    rw [← split.mem_iff, List.mem_append] at this
    rw [List.mem_append]
    tauto
  case refine_2 =>
    have ⟨q, hq, eq⟩ := List.mem_map.mp hp
    subst eq
    have disjoint : ∀ m ∈ nextLayer waiting, m ∉ done := fun m hm hd =>
      (List.nodup_append.mp nodup).2.2 m hd m (List.mem_append_left _ hm) rfl
    simp only [Pending.release, h.needed q (List.mem_filter.mp hq).1]
    generalize q.releasers = ms
    induction ms
    case nil => rfl
    case cons m ms hi =>
      have le : ms.countP (nextLayer waiting).contains ≤ ms.countP fun m => !done.contains m :=
        List.countP_mono_left fun k _ hk => by simpa using disjoint k (by simpa using hk)
      by_cases hn : m ∈ nextLayer waiting
      case pos =>
        have hd := disjoint m hn
        simp [hn, hd] at hi le ⊢
        omega
      case neg =>
        by_cases hd : m ∈ done
        case pos => simpa [List.countP_cons, hn, hd] using hi
        case neg =>
          simp [hn, hd] at hi le ⊢
          omega

-- Of those that wait, one of the lowest rank waits for nothing.
theorem exists_ready (h : Waiting done waiting) {rank : Nat → Nat}
    (ranked : ∀ p ∈ waiting, ∀ m ∈ p.releasers, rank m < rank p.node) (some : waiting ≠ []) :
    ∃ p ∈ waiting, p.needed = 0 := by
  cases found : waiting.argmin fun p => rank p.node
  case none => exact absurd (List.argmin_eq_none.mp found) some
  case some p =>
    have hp := List.argmin_mem found
    refine ⟨p, hp, ?_⟩
    rw [h.needed p hp, List.countP_eq_zero]
    intro m hm
    have lt := ranked p hp m hm
    cases h.releasers p hp m hm
    case inl hd => simpa using hd
    case inr hw =>
      have ⟨q, hq, eq⟩ := List.mem_map.mp hw
      have le := List.le_of_mem_argmin (f := fun p : Pending => rank p.node) hq found
      simp only [eq] at le
      omega

theorem eq_nil_of_isEmpty (h : Waiting done waiting) {rank : Nat → Nat}
    (ranked : ∀ p ∈ waiting, ∀ m ∈ p.releasers, rank m < rank p.node)
    (empty : (waiting.filter fun p => p.needed == 0).isEmpty) : waiting = [] := by
  by_contra some
  have ⟨p, hp, zero⟩ := h.exists_ready ranked some
  have : p ∈ waiting.filter fun p => p.needed == 0 := by simp [hp, zero]
  simp [List.isEmpty_iff.mp empty] at this

-- All that waits gets into a layer.
theorem perm_layersFrom (h : Waiting done waiting) {rank : Nat → Nat}
    (ranked : ∀ p ∈ waiting, ∀ m ∈ p.releasers, rank m < rank p.node)
    (len : waiting.length ≤ fuel) :
    (layersFrom fuel waiting).flatten.Perm (waiting.map Pending.node) := by
  induction fuel generalizing done waiting
  case zero =>
    have : waiting = [] := List.eq_nil_of_length_eq_zero (by omega)
    simp [this, layersFrom]
  case succ fuel hi =>
    rw [layersFrom_succ]
    split
    case isTrue empty => simp [h.eq_nil_of_isEmpty ranked empty]
    case isFalse some =>
      have shorter : (afterLayer waiting).length ≤ fuel := by
        have := length_afterLayer_lt some
        omega
      have ranked' : ∀ p ∈ afterLayer waiting, ∀ m ∈ p.releasers, rank m < rank p.node := by
        intro p hp m hm
        have ⟨q, hq, eq⟩ := List.mem_map.mp hp
        subst eq
        exact ranked q (List.mem_filter.mp hq).1 m hm
      exact ((hi h.next ranked' shorter).append_left _).trans h.perm_split

-- What an operation waits for is in an earlier layer.
theorem mem_earlier (h : Waiting done waiting) {ls rs : List (List Nat)} {l : List Nat}
    (cut : layersFrom fuel waiting = ls ++ l :: rs) (hp : p ∈ waiting) (hl : p.node ∈ l)
    (hm : m ∈ p.releasers) : m ∈ done ∨ m ∈ ls.flatten := by
  have nodup : (waiting.map Pending.node).Nodup := (List.nodup_append.mp h.nodup).2.1
  induction fuel generalizing done waiting ls p
  case zero => simp [layersFrom] at cut
  case succ fuel hi =>
    rw [layersFrom_succ] at cut
    split at cut
    case isTrue => simp at cut
    case isFalse =>
      cases ls
      case nil =>
        -- The first layer waits for what is done.
        have ⟨first, _⟩ := List.cons.inj cut
        have ⟨q, hq, ready, node⟩ := mem_nextLayer (first ▸ hl)
        cases List.inj_on_of_nodup_map nodup hp hq node.symm
        have none := h.needed p hp
        rw [ready, eq_comm, List.countP_eq_zero] at none
        exact .inl (by simpa using none m hm)
      case cons l₀ ls =>
        have ⟨first, rest⟩ := List.cons.inj cut
        have later : p.node ∈ (layersFrom fuel (afterLayer waiting)).flatten := by
          simp [rest, hl]
        have later := mem_of_mem_layersFrom later
        rw [map_node_afterLayer] at later
        have ⟨q, hq, node⟩ := List.mem_map.mp later
        cases List.inj_on_of_nodup_map nodup hp (List.mem_filter.mp hq).1 node.symm
        have waits : p.release (nextLayer waiting) ∈ afterLayer waiting := List.mem_map_of_mem hq
        have := hi h.next rest waits hl hm (List.nodup_append.mp h.next.nodup).2.1
        rw [List.mem_append] at this
        rw [List.flatten_cons, List.mem_append, ← first]
        tauto

end Waiting

variable {d : Dag} {seq : List (Nat × Instruction)} {i : Instruction} {m : Nat} {w : Wire}

theorem length_chainLengths (ops : List (Nat × List Nat)) (known : List (Nat × Nat)) :
    (chainLengths ops known).length = ops.length + known.length := by
  induction ops generalizing known
  case nil => simp [chainLengths]
  case cons x ops hi =>
    rw [chainLengths, hi, List.length_cons, List.length_cons]
    omega

theorem length_pending : d.pending.length = d.topologicalOps.length := by
  simp [pending, length_chainLengths]

theorem getElem_pending {k : Nat} (h : k < d.pending.length) :
    ∃ n i, d.topologicalOps[k]? = some (n, i) ∧ d.pending[k].node = n ∧
      d.pending[k].needed = (d.wiring.opPredecessors n i).length ∧
      d.pending[k].releasers = (d.topologicalOps.filter fun x =>
        (d.wiring.opSuccessors x.1 x.2).contains n).map Prod.fst := by
  have lt : k < d.topologicalOps.length := length_pending ▸ h
  refine ⟨d.topologicalOps[k].1, d.topologicalOps[k].2, List.getElem?_eq_getElem lt, ?_, ?_, ?_⟩
  case refine_1 => simp [pending]
  case refine_2 => simp [pending]
  case refine_3 => simp [pending, List.filter_map, Function.comp_def]

theorem map_node_pending : d.pending.map Pending.node = d.topologicalOps.map Prod.fst := by
  refine List.ext_getElem (by simp [length_pending]) fun k h₁ h₂ => ?_
  have ⟨n, i, eq, node, _⟩ := getElem_pending (d := d) (k := k) (by simpa using h₁)
  have := List.getElem?_eq_some_iff.mp eq
  simp [node, this.2]

-- What is known of an operation that waits.
theorem of_mem_pending (hp : p ∈ d.pending) :
    ∃ i, (p.node, i) ∈ d.topologicalOps ∧
      p.needed = (d.wiring.opPredecessors p.node i).length ∧
      p.releasers = (d.topologicalOps.filter fun x =>
        (d.wiring.opSuccessors x.1 x.2).contains p.node).map Prod.fst := by
  have ⟨k, lt, eq⟩ := List.getElem_of_mem hp
  have ⟨n, i, found, node, needed, releasers⟩ := getElem_pending lt
  rw [eq] at node needed releasers
  subst node
  exact ⟨i, List.mem_of_getElem? found, needed, releasers⟩

-- A layer holds operations only.
theorem isSome_of_mem_layers {layer : List Nat} (hl : layer ∈ d.layers) (hn : n ∈ layer) :
    (d.instruction? n).isSome := by
  have mem := mem_of_mem_layersFrom (List.mem_flatten.mpr ⟨layer, hl, hn⟩)
  rw [map_node_pending, map_fst_topologicalOps] at mem
  exact (List.mem_filter.mp mem).2

theorem mem_pairsOf {nodes : List Nat} {x : Nat × Nat} :
    x ∈ d.pairsOf nodes ↔ ∃ n ∈ nodes, ∃ i, d.instruction? n = some i ∧ i.pair? = some x := by
  simp [pairsOf, Option.bind_eq_some_iff]

-- The operations just before an operation are those that edges lead from, and the operations just after
-- it are those that edges lead to.
structure Tied (d : Dag) : Prop where
  lists : d.Lists d.topologicalOps
  before : ∀ {n m i}, d.instruction? n = some i → (m ∈ d.wiring.opPredecessors n i ↔
    (d.instruction? m).isSome ∧ ∃ w, ⟨m, n, w⟩ ∈ d.graph.edges)
  after : ∀ {n m i}, d.instruction? n = some i → (m ∈ d.wiring.opSuccessors n i ↔
    (d.instruction? m).isSome ∧ ∃ w, ⟨n, m, w⟩ ∈ d.graph.edges)

-- Where the edges into a node are on different wires, the node before it on a wire is where the edge on
-- this wire comes from.
theorem predecessor?_iff_of_nodup (once : ((d.graph.incoming n).map Edge.wire).Nodup) :
    d.wiring.predecessor? n w = some m ↔ ⟨m, n, w⟩ ∈ d.graph.edges := by
  have enters : ∀ x ∈ d.graph.edges, x.target = n → x ∈ d.graph.incoming n := fun x hx target =>
    List.mem_filter.mpr ⟨hx, by simpa using target⟩
  rw [wiring, Graph.wiring_predecessor?, Graph.predecessor?_eq_some_iff]
  exact fun x hx y hy target target' =>
    List.inj_on_of_nodup_map once (enters x hx target) (enters y hy target')

theorem successor?_iff_of_nodup (once : ((d.graph.outgoing n).map Edge.wire).Nodup) :
    d.wiring.successor? n w = some m ↔ ⟨n, m, w⟩ ∈ d.graph.edges := by
  have leaves : ∀ x ∈ d.graph.edges, x.source = n → x ∈ d.graph.outgoing n := fun x hx source =>
    List.mem_filter.mpr ⟨hx, by simpa using source⟩
  rw [wiring, Graph.wiring_successor?, Graph.successor?_eq_some_iff]
  exact fun x hx y hy source source' =>
    List.inj_on_of_nodup_map once (leaves x hx source) (leaves y hy source')

-- It is enough that an operation has one edge in and one edge out for each of its wires.
theorem tied_of_perm (lists : d.Lists d.topologicalOps)
    (nodup : ∀ n i, d.instruction? n = some i → i.wires.Nodup)
    (incoming : ∀ n i, d.instruction? n = some i → ((d.graph.incoming n).map Edge.wire).Perm i.wires)
    (outgoing : ∀ n i, d.instruction? n = some i → ((d.graph.outgoing n).map Edge.wire).Perm i.wires) :
    d.Tied := by
  refine ⟨lists, fun {n m i} hi => ?_, fun {n m i} hi => ?_⟩
  case refine_1 =>
    have perm := incoming n i hi
    simp only [Wiring.opPredecessors, natLt_separating.mem_sortUnique, List.mem_filter,
      List.mem_filterMap, predecessor?_iff_of_nodup (perm.nodup_iff.mpr (nodup n i hi))]
    constructor
    case mp =>
      rintro ⟨⟨w, _, edge⟩, op⟩
      exact ⟨op, w, edge⟩
    case mpr =>
      rintro ⟨op, w, edge⟩
      have enters : ⟨m, n, w⟩ ∈ d.graph.incoming n := List.mem_filter.mpr ⟨edge, by simp⟩
      exact ⟨⟨w, perm.mem_iff.mp (List.mem_map_of_mem enters), edge⟩, op⟩
  case refine_2 =>
    have perm := outgoing n i hi
    simp only [Wiring.opSuccessors, natLt_separating.mem_sortUnique, List.mem_filter,
      List.mem_filterMap, successor?_iff_of_nodup (perm.nodup_iff.mpr (nodup n i hi))]
    constructor
    case mp =>
      rintro ⟨⟨w, _, edge⟩, op⟩
      exact ⟨op, w, edge⟩
    case mpr =>
      rintro ⟨op, w, edge⟩
      have leaves : ⟨n, m, w⟩ ∈ d.graph.outgoing n := List.mem_filter.mpr ⟨edge, by simp⟩
      exact ⟨⟨w, perm.mem_iff.mp (List.mem_map_of_mem leaves), edge⟩, op⟩

namespace Tied

theorem mem_releasers (h : d.Tied) (hp : p ∈ d.pending) :
    m ∈ p.releasers ↔ (d.instruction? m).isSome ∧ ∃ w, ⟨m, p.node, w⟩ ∈ d.graph.edges := by
  obtain ⟨i, hi, _, releasers⟩ := of_mem_pending hp
  have op : (d.instruction? p.node).isSome := by simp [(h.lists.mem_iff _ _).mp hi]
  rw [releasers]
  simp only [List.mem_map, List.mem_filter, List.contains_iff_mem]
  constructor
  case mp =>
    rintro ⟨x, ⟨hx, succ⟩, rfl⟩
    have found := (h.lists.mem_iff x.1 x.2).mp hx
    exact ⟨by simp [found], ((h.after found).mp succ).2⟩
  case mpr =>
    rintro ⟨isOp, edge⟩
    obtain ⟨j, hj⟩ := Option.isSome_iff_exists.mp isOp
    exact ⟨(m, j), ⟨(h.lists.mem_iff m j).mpr hj, (h.after hj).mpr ⟨op, edge⟩⟩, rfl⟩

theorem nodup_releasers (h : d.Tied) (hp : p ∈ d.pending) : p.releasers.Nodup := by
  have ⟨_, _, _, releasers⟩ := of_mem_pending hp
  rw [releasers]
  exact h.lists.nodup.sublist (List.filter_sublist.map _)

theorem waiting_pending (h : d.Tied) : Waiting [] d.pending := by
  refine ⟨?_, fun p hp m hm => .inr ?_, fun p hp => ?_⟩
  case refine_1 =>
    rw [List.nil_append, map_node_pending]
    exact h.lists.nodup
  case refine_2 =>
    have ⟨op, _⟩ := (h.mem_releasers hp).mp hm
    have ⟨j, hj⟩ := Option.isSome_iff_exists.mp op
    rw [map_node_pending]
    exact List.mem_map_of_mem ((h.lists.mem_iff m j).mpr hj)
  case refine_3 =>
    have ⟨i, hi, needed, _⟩ := of_mem_pending hp
    have perm : (d.wiring.opPredecessors p.node i).Perm p.releasers := by
      refine (List.perm_ext_iff_of_nodup (natLt_separating.nodup_sortUnique _)
        (h.nodup_releasers hp)).mpr fun m => ?_
      rw [h.mem_releasers hp]
      exact h.before ((h.lists.mem_iff _ _).mp hi)
    have all : (fun m : Nat => !([] : List Nat).contains m) = fun _ => true := by simp
    rw [needed, perm.length_eq, all, List.countP_true]

-- Each operation is in one layer.
theorem perm_layers (h : d.Tied) : d.layers.flatten.Perm (d.topologicalOps.map Prod.fst) := by
  have ranked : ∀ p ∈ d.pending, ∀ m ∈ p.releasers, d.order.idxOf m < d.order.idxOf p.node := by
    intro p hp m hm
    have ⟨_, w, edge⟩ := (h.mem_releasers hp).mp hm
    have node := List.mem_map_of_mem (f := Pending.node) hp
    rw [map_node_pending, map_fst_topologicalOps] at node
    exact (idxOf_order_lt edge (List.mem_filter.mp node).1).2
  exact map_node_pending (d := d) ▸ h.waiting_pending.perm_layersFrom ranked le_rfl

theorem nodup_layers (h : d.Tied) : d.layers.flatten.Nodup :=
  h.perm_layers.nodup_iff.mpr h.lists.nodup

-- What comes before an operation is in an earlier layer.
theorem mem_earlier (h : d.Tied) {ls rs : List (List Nat)} {l : List Nat}
    (cut : d.layers = ls ++ l :: rs) (hn : n ∈ l) (op : (d.instruction? m).isSome)
    (edge : ⟨m, n, w⟩ ∈ d.graph.edges) : m ∈ ls.flatten := by
  have waits : n ∈ d.pending.map Pending.node := by
    rw [map_node_pending, ← h.perm_layers.mem_iff, cut]
    simp [hn]
  have ⟨p, hp, node⟩ := List.mem_map.mp waits
  subst node
  have releaser := (h.mem_releasers hp).mpr ⟨op, w, edge⟩
  exact (h.waiting_pending.mem_earlier cut hp hn releaser).resolve_left (by simp)

-- In the layers read one after the other, an operation comes behind what it waits for.
theorem mem_of_flatten_eq (h : d.Tied) (cut : d.layers.flatten = u ++ n :: v)
    (op : (d.instruction? m).isSome) (edge : ⟨m, n, w⟩ ∈ d.graph.edges) : m ∈ u := by
  obtain ⟨l, hl, mem⟩ := List.mem_flatten.mp (show n ∈ d.layers.flatten by simp [cut])
  obtain ⟨ls, rs, eq⟩ := List.append_of_mem hl
  obtain ⟨a, b, eq'⟩ := List.append_of_mem mem
  have nodup := h.nodup_layers
  rw [cut, List.nodup_middle, List.nodup_cons, List.mem_append, not_or] at nodup
  have again : u ++ n :: v = (ls.flatten ++ a) ++ n :: (b ++ rs.flatten) := by
    simp [← cut, eq, eq']
  obtain ⟨front, _⟩ := (List.append_cons_inj_of_notMem nodup.1.1 nodup.1.2).mp again
  rw [front]
  exact List.mem_append_left _ (h.mem_earlier eq mem op edge)

-- Along a chain of operations the layers grow.
theorem mem_earlier_of_chain (h : d.Tied) {ls rs : List (List Nat)} {l : List Nat}
    (cut : d.layers = ls ++ l :: rs) (hn : n ∈ l)
    (chain : Relation.TransGen (fun a b => (d.instruction? a).isSome ∧ d.successor? a w = some b) m n) :
    m ∈ ls.flatten := by
  induction chain generalizing ls l rs
  case single step => exact h.mem_earlier cut hn step.1 (Graph.mem_edges_of_successor? step.2)
  case tail step hi =>
    have earlier := h.mem_earlier cut hn step.1 (Graph.mem_edges_of_successor? step.2)
    have ⟨l', hl', mem⟩ := List.mem_flatten.mp earlier
    have ⟨ls', rs', split⟩ := List.append_of_mem hl'
    have cut' : d.layers = ls' ++ l' :: (rs' ++ l :: rs) := by simp [cut, split]
    rw [split, List.flatten_append]
    exact List.mem_append_left _ (hi cut' mem)

-- Two operations of a layer are on no common wire.
theorem eq_of_mem_wireOps (h : d.Tied) {layer : List Nat} {k : Nat} (hl : layer ∈ d.layers)
    (hn : n ∈ layer) (hk : k ∈ layer) (on : n ∈ d.wireOps w) (on' : k ∈ d.wireOps w) : n = k := by
  obtain ⟨ls, rs, cut⟩ := List.append_of_mem hl
  have nodup := h.nodup_layers
  rw [cut, List.flatten_append, List.flatten_cons] at nodup
  have apart : ∀ a b, a ∈ layer → b ∈ layer → ¬Relation.TransGen
      (fun a b => (d.instruction? a).isSome ∧ d.successor? a w = some b) a b := by
    intro a b ha hb chain
    have earlier := h.mem_earlier_of_chain cut hb chain
    exact absurd rfl ((List.nodup_append.mp nodup).2.2 a earlier a (List.mem_append_left _ ha))
  have ops : ∀ a ∈ d.wireOps w, (d.instruction? a).isSome := fun a ha => isSome_of_mem_wireOps ha
  have chain : (d.wireOps w).Pairwise (Relation.TransGen
      fun a b => (d.instruction? a).isSome ∧ d.successor? a w = some b) := by
    refine List.IsChain.pairwise (isChain_of_hops fun a b hop => ?_)
    exact .single ⟨ops a (mem_of_mem_hops hop).1, successor?_of_mem_hops_wireOps hop⟩
  have others : (d.wireOps w).Pairwise fun a b => ¬(a ∈ layer ∧ b ∈ layer) :=
    chain.imp fun {a b} step (both : a ∈ layer ∧ b ∈ layer) => apart a b both.1 both.2 step
  have : Std.Symm fun a b => ¬(a ∈ layer ∧ b ∈ layer) := ⟨fun _ _ no both => no both.symm⟩
  by_contra ne
  exact others.forall on on' ne ⟨hn, hk⟩

end Tied

namespace Serial

theorem mem_wires_of_edge (h : d.Serial seq) (hx : (n, i) ∈ seq) {x : Edge}
    (he : x ∈ d.graph.edges) (touch : x.source = n ∨ x.target = n) : x.wire ∈ i.wires := by
  have ⟨e, hw, eq, hop⟩ := (h.laid.mem_edges x).mp he
  have ⟨hs, ht⟩ := mem_of_mem_hops hop
  have op : (d.instruction? n).isSome := by simp [(h.mem_iff n i).mp hx]
  have mem : n ∈ track (onWire · seq) e := touch.elim (fun eq => eq ▸ hs) fun eq => eq ▸ ht
  have ⟨_, _, on⟩ := h.wires_of_mem hx
  exact eq ▸ (on e hw).mp ((h.laid.mem_track_iff hw op).mp mem)

theorem tied (h : d.Serial seq) : d.Tied := by
  have member : ∀ {n i}, d.instruction? n = some i → (n, i) ∈ seq := fun hi => (h.mem_iff _ _).mpr hi
  exact tied_of_perm h.topologicalOps.lists (fun n i hi => (h.fits _ (member hi)).wires_nodup)
    (fun n i hi => h.perm_incoming (member hi)) fun n i hi => h.perm_outgoing (member hi)

-- The layers read one after the other.
theorem layers (h : d.Serial seq) :
    (d.opsAt d.layers.flatten).map Prod.fst = d.layers.flatten ∧
      d.Serial (d.opsAt d.layers.flatten) := by
  have perm := h.tied.perm_layers
  have ops : (d.opsAt d.layers.flatten).map Prod.fst = d.layers.flatten := by
    rw [map_fst_opsAt, List.filter_eq_self]
    intro n hn
    obtain ⟨layer, hl, hn⟩ := List.mem_flatten.mp hn
    exact isSome_of_mem_layers hl hn
  refine ⟨ops, h.of_forward (h.perm_topologicalOps.trans ?_) ?_⟩
  case refine_1 =>
    have again : d.opsAt (d.topologicalOps.map Prod.fst) = d.topologicalOps := by
      rw [map_fst_topologicalOps, opsAt, Dag.topologicalOps, List.filterMap_filter]
      refine List.filterMap_congr fun n _ => ?_
      cases d.instruction? n <;> rfl
    exact again ▸ (perm.symm.filterMap _)
  case refine_2 =>
    intro u x v split e he target op
    have cut : d.layers.flatten = u.map Prod.fst ++ x.1 :: v.map Prod.fst := by
      rw [← ops, split]
      simp
    have edge : ⟨e.source, x.1, e.wire⟩ ∈ d.graph.edges := target ▸ he
    exact h.tied.mem_of_flatten_eq cut op edge

theorem mem_wireOps (h : d.Serial seq) (found : d.instruction? n = some i) (hw : w ∈ i.wires) :
    n ∈ d.wireOps w :=
  h.wireOps w ▸ mem_onWire.mpr ⟨i, (h.mem_iff n i).mpr found, hw⟩

-- Two operations of a layer share no wire.
theorem eq_of_mem_layer (h : d.Serial seq) {layer : List Nat} {k : Nat} {j : Instruction}
    (hl : layer ∈ d.layers) (hn : n ∈ layer) (hk : k ∈ layer) (hi : d.instruction? n = some i)
    (hj : d.instruction? k = some j) (wi : w ∈ i.wires) (wj : w ∈ j.wires) : n = k :=
  h.tied.eq_of_mem_wireOps hl hn hk (h.mem_wireOps hi wi) (h.mem_wireOps hj wj)

end Serial

-- The two-qubit gates of a layer have all their operands apart.
theorem Tied.nodup_pairsOf (h : d.Tied)
    (paths : ∀ n i, d.instruction? n = some i → i.qubits.Nodup ∧ ∀ w ∈ i.wires, n ∈ d.wireOps w)
    {layer : List Nat} (hl : layer ∈ d.layers) :
    ((d.pairsOf layer).flatMap fun x => [x.1, x.2]).Nodup := by
  have on : ∀ {n i x q}, d.instruction? n = some i → i.pair? = some x → q ∈ [x.1, x.2] →
      n ∈ d.wireOps (.qubit q) := by
    intro n i x q found pair hq
    refine (paths n i found).2 _ ?_
    rw [Instruction.wires, Instruction.qubits_of_pair? pair]
    exact List.mem_append_left _ (List.mem_map_of_mem hq)
  refine List.nodup_flatMap.mpr ⟨fun x hx => ?_, List.pairwise_filterMap.mpr ?_⟩
  case refine_1 =>
    obtain ⟨n, _, i, found, pair⟩ := mem_pairsOf.mp hx
    exact Instruction.qubits_of_pair? pair ▸ (paths n i found).1
  case refine_2 =>
    have each := (List.nodup_flatten.mp h.nodup_layers).1 layer hl
    refine each.pairwise_of_forall_ne fun n hn k hk ne => ?_
    intro x hx y hy q hq hq'
    obtain ⟨i, found, pair⟩ := Option.bind_eq_some_iff.mp hx
    obtain ⟨j, found', pair'⟩ := Option.bind_eq_some_iff.mp hy
    exact ne (h.eq_of_mem_wireOps hl hn hk (on found pair hq) (on found' pair' hq'))

end Dag

end CircuitRouting
