import CircuitRouting.Proofs.Graph.Peel

/-!
# Counting down the edges of a graph

The topological order by a count of edges for each node and a heap of ready nodes, neither of which is
kept in any particular order. Counts and heap are filled in the order in which a table lists the nodes.
A count that would fall below zero is a failure, and so is a node that comes up once too often.
`countdown_eq_order` says that nothing fails and that the order is that of the graph, however the table
lists the nodes.
-/

namespace CircuitRouting.Graph

-- The edges that still lead to each node, and the nodes to which none does. Of several counts of one
-- node the first is meant.
structure Countdown where
  counts : List (Nat × Nat)
  ready : List Nat

namespace Countdown

-- Takes an edge off, unless its target has no edges left.
def cross (c : Countdown) (e : Edge) : Option Countdown :=
  match c.counts.lookup e.target with
  | none => some c
  | some 0 => none
  | some (k + 1) =>
    some ⟨(e.target, k) :: c.counts, if k = 0 then e.target :: c.ready else c.ready⟩

-- Takes the lowest ready node off, as long as there is one, but at most `fuel` times.
def run (g : Graph) : (fuel : Nat) → Countdown → Option (List Nat)
  | 0, c => if c.ready = [] then some [] else none
  | fuel + 1, c =>
    match c.ready.min? with
    | none => some []
    | some n => do
      let c ← (g.outgoing n).foldlM cross { c with ready := c.ready.erase n }
      let ns ← run g fuel c
      return n :: ns

end Countdown

variable {g : Graph}

-- The order from a table that lists the nodes.
def countdown (g : Graph) (listed : List Nat) : Option (List Nat) :=
  Countdown.run g listed.length {
    counts := listed.map fun n => (n, (g.incoming n).length)
    ready := listed.filter fun n => (g.incoming n).length == 0 }

namespace Countdown

variable {nodes : List Nat} {edges : List Edge} {degree degree' : Nat → Nat} {c : Countdown}

-- Each node has its count, and those without an edge are ready.
structure Counts (g : Graph) (nodes : List Nat) (degree : Nat → Nat) (c : Countdown) : Prop where
  counts : ∀ m, c.counts.lookup m = if (g.node? m).isSome then some (degree m) else none
  ready : c.ready.Perm (nodes.filter fun m => degree m == 0)

namespace Counts

-- An edge to a number without a node changes no count and makes nothing ready.
theorem of_not_node {t : Nat} (h : c.Counts g nodes degree) (r : g.Remaining nodes degree)
    (none : ¬(g.node? t).isSome) (elsewhere : ∀ m, m ≠ t → degree m = degree' m) :
    c.Counts g nodes degree' := by
  have outside : t ∉ nodes := fun mem => none (r.isNode t mem)
  refine ⟨fun m => ?_, ?_⟩
  case refine_1 =>
    rw [h.counts]
    split
    case isTrue hm =>
      have ne : m ≠ t := fun eq => none (eq ▸ hm)
      rw [elsewhere m ne]
    case isFalse => rfl
  case refine_2 =>
    exact h.ready.trans (.of_eq (filter_settled_of_busy elsewhere fun mem => absurd mem outside))

-- The last edge to a node makes it ready, and no other does.
theorem ready_cross {t : Nat} (h : c.Counts g nodes degree) (r : g.Remaining nodes degree)
    (target : t ∈ nodes) (here : degree t = degree' t + 1)
    (elsewhere : ∀ m, m ≠ t → degree m = degree' m) :
    (if degree' t = 0 then t :: c.ready else c.ready).Perm
      (nodes.filter fun m => degree' m == 0) := by
  have nodup : nodes.Nodup := r.sorted.imp Nat.ne_of_lt
  split
  case isTrue last =>
    have absent : t ∉ c.ready := fun hr => by simpa [here] using h.ready.mem_iff.mp hr
    have ready : c.ready.Nodup := h.ready.nodup_iff.mpr (nodup.filter _)
    rw [← filter_settled_of_last elsewhere last]
    refine (List.perm_ext_iff_of_nodup (ready.cons absent) (nodup.filter _)).mpr fun m => ?_
    rw [List.mem_cons, h.ready.mem_iff, List.mem_filter, List.mem_filter]
    by_cases hm : m = t
    case pos => simp [hm, target]
    case neg => simp [hm]
  case isFalse left =>
    exact h.ready.trans (.of_eq (filter_settled_of_busy elsewhere fun _ => ⟨by omega, left⟩))

-- Crossing an edge off lowers the count of its target, which was not zero.
theorem cross {e : Edge} (h : c.Counts g nodes degree) (r : g.Remaining nodes degree)
    (here : degree e.target = degree' e.target + 1)
    (elsewhere : ∀ m, m ≠ e.target → degree m = degree' m) :
    ∃ c', c.cross e = some c' ∧ c'.Counts g nodes degree' := by
  have count := h.counts e.target
  by_cases node : (g.node? e.target).isSome
  case neg =>
    rw [if_neg node] at count
    exact ⟨c, by simp [Countdown.cross, count], h.of_not_node r node elsewhere⟩
  case pos =>
    rw [if_pos node, here] at count
    have target : e.target ∈ nodes := r.isLeft e.target node (by omega)
    refine ⟨_, by simp only [Countdown.cross, count]; rfl, fun m => ?_,
      h.ready_cross r target here elsewhere⟩
    rw [List.lookup_cons]
    by_cases hm : m = e.target
    case pos => simp [hm, node]
    case neg => rw [beq_false_of_ne hm, h.counts, elsewhere m hm]

-- Crossing edges off leaves the count of those that stay.
theorem crossAll {stay : Nat → Nat} {es : List Edge}
    (h : c.Counts g nodes fun m => stay m + inDegree es m)
    (r : g.Remaining nodes fun m => stay m + inDegree es m) :
    ∃ c', es.foldlM Countdown.cross c = some c' ∧ c'.Counts g nodes stay := by
  induction es generalizing c
  case nil => exact ⟨c, rfl, by simpa [inDegree] using h⟩
  case cons e es hi =>
    have here : stay e.target + inDegree (e :: es) e.target =
        stay e.target + inDegree es e.target + 1 := by
      simp [inDegree, Nat.add_assoc]
    have elsewhere : ∀ m, m ≠ e.target →
        stay m + inDegree (e :: es) m = stay m + inDegree es m := by
      intro m hm
      simp [inDegree, Ne.symm hm]
    obtain ⟨c', crossed, counts⟩ : ∃ c', c.cross e = some c' ∧
        c'.Counts g nodes fun m => stay m + inDegree es m := h.cross r here elsewhere
    have fewer : g.Remaining nodes fun m => stay m + inDegree es m :=
      r.mono fun m => Nat.add_le_add_left (List.sublist_cons_self e es).countP_le _
    obtain ⟨c'', rest, counts⟩ := hi counts fewer
    exact ⟨c'', by simp [crossed, rest], counts⟩

-- The lowest ready node is the first node without edges.
theorem min?_eq (h : c.Counts g nodes degree) (sorted : nodes.Pairwise (· < ·)) :
    c.ready.min? = nodes.find? fun m => degree m == 0 := by
  cases found : nodes.find? fun m => degree m == 0
  case none =>
    have none : nodes.filter (fun m => degree m == 0) = [] :=
      List.filter_eq_nil_iff.mpr (List.find?_eq_none.mp found)
    rw [List.min?_eq_none_iff]
    exact List.perm_nil.mp (none ▸ h.ready)
  case some n =>
    refine List.min?_eq_some_iff.mpr ⟨h.ready.mem_iff.mpr ?_, fun m hm => ?_⟩
    case refine_1 =>
      have ready := List.find?_some found
      exact List.mem_filter.mpr ⟨List.mem_of_find?_eq_some found, ready⟩
    case refine_2 =>
      have ⟨hm, ready⟩ := List.mem_filter.mp (h.ready.mem_iff.mp hm)
      exact find?_le sorted found hm ready

-- Taking a ready node off leaves the edges that start elsewhere.
theorem takeOff {n : Nat} (h : c.Counts g nodes (inDegree edges))
    (r : g.Remaining nodes (inDegree edges)) (free : inDegree edges n = 0)
    (sources : edges.filter (·.source == n) = g.outgoing n) :
    g.Remaining (nodes.erase n) (inDegree (edges.filter fun e => e.source != n)) ∧
      ∃ c', (g.outgoing n).foldlM Countdown.cross { c with ready := c.ready.erase n } = some c' ∧
        c'.Counts g (nodes.erase n) (inDegree (edges.filter fun e => e.source != n)) := by
  have split : inDegree edges = fun m =>
      inDegree (edges.filter fun e => e.source != n) m + inDegree (g.outgoing n) m :=
    funext fun m => sources ▸ inDegree_eq_add edges n m
  have still := r.erase free
  have ready : (c.ready.erase n).Perm ((nodes.erase n).filter fun m => inDegree edges m == 0) := by
    rw [← List.erase_filter]
    exact h.ready.erase n
  have left : Counts g (nodes.erase n) (inDegree edges) { c with ready := c.ready.erase n } :=
    ⟨h.counts, ready⟩
  rw [split] at left still
  exact ⟨still.mono fun m => Nat.le_add_right _ _, left.crossAll still⟩

-- Taking nodes off as they come ready peels the graph.
theorem run_eq_peel {fuel : Nat} (h : c.Counts g nodes (inDegree edges))
    (r : g.Remaining nodes (inDegree edges)) (enough : nodes.length ≤ fuel)
    (sources : ∀ m ∈ nodes, edges.filter (·.source == m) = g.outgoing m) :
    c.run g fuel = some (peel fuel nodes edges) := by
  induction fuel generalizing nodes edges c
  case zero =>
    have ready := h.ready
    simp only [List.eq_nil_of_length_eq_zero (Nat.le_zero.mp enough), List.filter_nil,
      List.perm_nil] at ready
    simp [run, ready, peel]
  case succ fuel hi =>
    rw [run, h.min?_eq r.sorted, peel_succ]
    cases found : nodes.find? fun n => inDegree edges n == 0
    case none => rfl
    case some n =>
      have hn := List.mem_of_find?_eq_some found
      have free : inDegree edges n = 0 := by simpa using List.find?_some found
      have nodup : nodes.Nodup := r.sorted.imp Nat.ne_of_lt
      obtain ⟨left, c', crossed, counts⟩ := h.takeOff r free (sources n hn)
      have shorter : (nodes.erase n).length ≤ fuel := by
        rw [List.length_erase_of_mem hn]
        omega
      have rest := hi counts left shorter fun m hm => by
        obtain ⟨ne, hm⟩ := nodup.mem_erase_iff.mp hm
        rw [filter_source_of_ne ne, sources m hm]
      simp [crossed, rest]

end Counts

end Countdown

theorem lookup_map {f : Nat → Nat} {listed : List Nat} (m : Nat) :
    (listed.map fun n => (n, f n)).lookup m = if m ∈ listed then some (f m) else none := by
  induction listed
  case nil => rfl
  case cons n ns hi =>
    rw [List.map_cons, List.lookup_cons, hi]
    by_cases h : m = n
    case pos => simp [h]
    case neg => simp only [beq_false_of_ne h, List.mem_cons, h, false_or]

-- However the table lists the nodes, counting down gives the order of the graph.
theorem countdown_eq_order {listed : List Nat} (perm : listed.Perm g.nodes) :
    g.countdown listed = some g.order := by
  have degree : ∀ n, (g.incoming n).length = inDegree g.edges n := fun n =>
    List.countP_eq_length_filter.symm
  have isNode : ∀ m ∈ g.nodes, (g.node? m).isSome := fun m hm => g.mem_nodes.mp hm
  rw [order_eq_peel, ← perm.length_eq, countdown]
  refine Countdown.Counts.run_eq_peel ⟨fun m => ?_, ?_⟩
    ⟨g.nodes_sorted, isNode, fun m hm _ => g.mem_nodes.mpr hm⟩ (Nat.le_of_eq perm.length_eq.symm)
    fun m _ => rfl
  case refine_1 => simp only [lookup_map, perm.mem_iff, g.mem_nodes, degree]
  case refine_2 => simpa only [degree] using perm.filter _

end CircuitRouting.Graph
