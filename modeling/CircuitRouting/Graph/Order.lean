import CircuitRouting.Graph.Wiring
import CircuitRouting.Sorted

/-!
# The topological order of a graph

The order takes nodes off the graph, each time the lowest one that no edge leads to. It is computed
from the number of edges into each node and the nodes without any; `order_eq_peel` says that this
comes to the same.
-/

namespace CircuitRouting

namespace Graph

-- Takes at most `fuel` nodes off the graph, each time the lowest one that no edge leads to.
def peel : (fuel : Nat) → (nodes : List Nat) → (edges : List Edge) → List Nat
  | 0, _, _ => []
  | fuel + 1, nodes, edges =>
    match nodes.find? fun n => edges.countP (·.target == n) == 0 with
    | none => []
    | some n => n :: peel fuel (nodes.erase n) (edges.filter fun e => e.source != n)

/-- How many edges still lead to each number, and the nodes to which none does, in ascending order. -/
structure Frontier where
  degrees : Array Nat
  ready : List Nat

namespace Frontier

-- Takes an edge off the graph; its target may become ready.
def settle (g : Graph) (f : Frontier) (e : Edge) : Frontier :=
  match f with
  | ⟨degrees, ready⟩ =>
    match degrees[e.target]? with
    | some (d + 1) =>
      ⟨degrees.setIfInBounds e.target d,
        if d = 0 ∧ (g.node? e.target).isSome then insertUnique natLt e.target ready else ready⟩
    | _ => ⟨degrees, ready⟩

-- Takes at most `fuel` ready nodes off the graph, the lowest first.
def run (x : Wiring) : (fuel : Nat) → Frontier → List Nat
  | 0, _ => []
  | _, ⟨_, []⟩ => []
  | fuel + 1, ⟨degrees, n :: ready⟩ =>
    n :: run x fuel ((x.outgoing n).foldl (settle x.graph) ⟨degrees, ready⟩)

end Frontier

variable (g : Graph)

/--
The topological order in which the lowest of the nodes that could come next always does. Nodes on a
cycle, and those that a cycle leads to, are left out.
-/
def order : List Nat :=
  let x := g.wiring
  let degrees := x.ins.map List.length
  let ns := g.nodes
  Frontier.run x ns.length ⟨degrees, ns.filter fun n => degrees.getD n 0 == 0⟩

-- The number of edges to a number.
def inDegree (edges : List Edge) (n : Nat) : Nat := edges.countP (·.target == n)

theorem insertUnique_of_lt {n : Nat} {ns : List Nat} (h : ∀ m ∈ ns, n < m) :
    insertUnique natLt n ns = n :: ns := by
  cases ns with
  | nil => rfl
  | cons m ms => simp [insertUnique, natLt, h m]

-- A member of an ascending list joins those that were picked from it.
theorem insertUnique_filter {p : Nat → Bool} {n : Nat} {ns : List Nat}
    (sorted : ns.Pairwise (· < ·)) (h : n ∈ ns) :
    insertUnique natLt n (ns.filter p) = ns.filter fun m => p m || m == n := by
  induction ns with
  | nil => simp at h
  | cons m ms ih =>
    obtain ⟨above, sorted⟩ := List.pairwise_cons.1 sorted
    by_cases hm : m = n
    · subst hm
      have rest : (ms.filter fun k => p k || k == m) = ms.filter p :=
        List.filter_congr fun k hk => by simp [Nat.ne_of_gt (above k hk)]
      by_cases hp : p m
      · simp [hp, rest, insertUnique, natLt]
      · have front : insertUnique natLt m (ms.filter p) = m :: ms.filter p :=
          insertUnique_of_lt fun k hk => above k (List.mem_filter.1 hk).1
        simp [hp, rest, front]
    · have hn : n ∈ ms := (List.mem_cons.1 h).resolve_left (Ne.symm hm)
      have hlt := above n hn
      by_cases hp : p m
      · simp [hp, insertUnique, natLt, hlt, Nat.not_lt_of_lt hlt, ih sorted hn]
      · simp [hp, hm, ih sorted hn]

/-- A frontier counts the edges to each node and knows those without any. -/
structure Frontier.Counts (g : Graph) (nodes : List Nat) (degree : Nat → Nat) (f : Frontier) :
    Prop where
  degrees : ∀ m, f.degrees[m]? = if m < g.slots.size then some (degree m) else none
  ready : f.ready = nodes.filter fun m => degree m == 0

/-- Ascending nodes of a graph; all others have no edges to them left. -/
structure Remaining (nodes : List Nat) (degree : Nat → Nat) : Prop where
  sorted : nodes.Pairwise (· < ·)
  isNode : ∀ m ∈ nodes, (g.node? m).isSome
  isLeft : ∀ m, (g.node? m).isSome → degree m ≠ 0 → m ∈ nodes

variable {g} in
-- A node without edges to it can be left out.
theorem Remaining.erase {nodes : List Nat} {degree : Nat → Nat} {n : Nat}
    (r : g.Remaining nodes degree) (free : degree n = 0) : g.Remaining (nodes.erase n) degree where
  sorted := r.sorted.erase n
  isNode m hm := r.isNode m (List.mem_of_mem_erase hm)
  isLeft m hm h := (List.mem_erase_of_ne fun hmn => h (by rw [hmn, free])).2 (r.isLeft m hm h)

variable {g} in
theorem Remaining.mono {nodes : List Nat} {degree degree' : Nat → Nat} (r : g.Remaining nodes degree)
    (le : ∀ m, degree' m ≤ degree m) : g.Remaining nodes degree' :=
  ⟨r.sorted, r.isNode, fun m hm h => r.isLeft m hm (by have := le m; omega)⟩

theorem lt_size_of_isSome {n : Nat} (h : (g.node? n).isSome) : n < g.slots.size := by
  by_cases hn : n < g.slots.size
  · exact hn
  · simp [node?, hn] at h

section Settled

variable {nodes : List Nat} {degree degree' : Nat → Nat} {t : Nat}

-- The nodes without edges stay the same if only the count of a node changes that is none of them.
theorem filter_settled_of_busy (elsewhere : ∀ m, m ≠ t → degree m = degree' m)
    (busy : t ∈ nodes → degree t ≠ 0 ∧ degree' t ≠ 0) :
    (nodes.filter fun m => degree m == 0) = nodes.filter fun m => degree' m == 0 := by
  refine List.filter_congr fun m hm => ?_
  by_cases eq : m = t
  · have ⟨before, after⟩ := busy (eq ▸ hm)
    rw [eq, beq_false_of_ne before, beq_false_of_ne after]
  · rw [elsewhere m eq]

-- A node to which the last edge is taken off joins them.
theorem filter_settled_of_last (elsewhere : ∀ m, m ≠ t → degree m = degree' m)
    (last : degree' t = 0) :
    (nodes.filter fun m => degree m == 0 || m == t) = nodes.filter fun m => degree' m == 0 := by
  refine List.filter_congr fun m _ => ?_
  by_cases eq : m = t
  · simp [eq, last]
  · simp [eq, elsewhere m eq]

end Settled

-- Taking one edge off lowers the count of its target.
theorem Frontier.Counts.settle {nodes : List Nat} {degree degree' : Nat → Nat} {f : Frontier}
    {e : Edge} (c : f.Counts g nodes degree) (r : g.Remaining nodes degree)
    (here : degree e.target = degree' e.target + 1)
    (elsewhere : ∀ m, m ≠ e.target → degree m = degree' m) :
    (f.settle g e).Counts g nodes degree' := by
  obtain ⟨degrees, ready⟩ := f
  have hd : ∀ m, degrees[m]? = if m < g.slots.size then some (degree m) else none := c.degrees
  have hr : ready = nodes.filter fun m => degree m == 0 := c.ready
  by_cases ht : e.target < g.slots.size
  · have at_target : degrees[e.target]? = some (degree' e.target + 1) := by simp [hd, ht, here]
    have ⟨size, _⟩ := Array.getElem?_eq_some_iff.1 at_target
    simp only [Frontier.settle, at_target]
    refine ⟨fun m => ?_, ?_⟩
    · simp only [Array.getElem?_setIfInBounds, hd]
      by_cases hm : e.target = m
      · subst hm
        simp [ht, size]
      · simp [hm, elsewhere m (Ne.symm hm)]
    · simp only
      split
      · next h =>
        have mem := r.isLeft e.target h.2 (by omega)
        rw [hr, insertUnique_filter r.sorted mem]
        exact filter_settled_of_last elsewhere h.1
      · next h =>
        rw [hr]
        refine filter_settled_of_busy elsewhere fun mem => ⟨by omega, fun last => ?_⟩
        exact h ⟨last, r.isNode _ mem⟩
  · have at_target : degrees[e.target]? = none := by simp [hd, ht]
    have outside : e.target ∉ nodes := fun mem => ht (lt_size_of_isSome g (r.isNode _ mem))
    simp only [Frontier.settle, at_target]
    refine ⟨fun m => ?_, hr.trans (filter_settled_of_busy elsewhere fun mem => absurd mem outside)⟩
    by_cases hm : m = e.target
    · subst hm
      simp [hd, ht]
    · simp [hd, elsewhere m hm]

-- Taking edges off leaves the count of those that stay.
theorem Frontier.Counts.settleAll {nodes : List Nat} {stay : Nat → Nat} {es : List Edge}
    {f : Frontier} (c : f.Counts g nodes fun m => stay m + inDegree es m)
    (r : g.Remaining nodes fun m => stay m + inDegree es m) :
    (es.foldl (Frontier.settle g) f).Counts g nodes stay := by
  induction es generalizing f with
  | nil => simpa [inDegree] using c
  | cons e es ih =>
    refine ih (c.settle g r ?_ ?_) (r.mono fun m => ?_)
    · simp [inDegree, Nat.add_assoc]
    · intro m hm
      simp [inDegree, Ne.symm hm]
    · simp only [inDegree, List.countP_cons]
      omega

theorem inDegree_eq_add (edges : List Edge) (n m : Nat) :
    inDegree edges m =
      inDegree (edges.filter (·.source != n)) m + inDegree (edges.filter (·.source == n)) m := by
  rw [inDegree, List.countP_eq_countP_filter_add _ _ (·.source != n)]
  simp [inDegree, bne]

-- The edges from a node stay when another one is taken off.
theorem filter_source_of_ne {n m : Nat} (ne : m ≠ n) (edges : List Edge) :
    (edges.filter (·.source != n)).filter (·.source == m) = edges.filter (·.source == m) := by
  rw [List.filter_filter]
  refine List.filter_congr fun e _ => ?_
  by_cases he : e.source = m
  · simp [he, ne]
  · simp [he]

/-- Running a frontier takes off the nodes that peeling the graph does. -/
theorem Frontier.run_eq_peel {fuel : Nat} {nodes : List Nat} {edges : List Edge} {f : Frontier}
    (c : f.Counts g nodes (inDegree edges)) (r : g.Remaining nodes (inDegree edges))
    (sources : ∀ m ∈ nodes, edges.filter (·.source == m) = g.outgoing m) :
    f.run g.wiring fuel = peel fuel nodes edges := by
  induction fuel generalizing nodes edges f with
  | zero => simp [run, peel]
  | succ fuel ih =>
    obtain ⟨degrees, ready⟩ := f
    have hr := c.ready
    simp only at hr
    have first : (nodes.find? fun n => edges.countP (·.target == n) == 0) = ready.head? := by
      rw [hr, List.head?_filter]
      rfl
    cases ready with
    | nil => simp [run, peel, first]
    | cons n ready =>
      have picked : n ∈ nodes.filter fun m => inDegree edges m == 0 := by simp [← hr]
      obtain ⟨hn, zero⟩ := List.mem_filter.1 picked
      simp only [beq_iff_eq] at zero
      have nodup : nodes.Nodup := r.sorted.imp Nat.ne_of_lt
      have rest : ready = (nodes.erase n).filter fun m => inDegree edges m == 0 := by
        rw [← List.erase_filter, ← hr, List.erase_cons_head]
      have eq : inDegree edges = fun m =>
          inDegree (edges.filter (·.source != n)) m + inDegree (g.outgoing n) m :=
        funext fun m => sources n hn ▸ inDegree_eq_add edges n m
      have still := r.erase zero
      have left : Frontier.Counts g (nodes.erase n) (inDegree edges) ⟨degrees, ready⟩ :=
        ⟨c.degrees, rest⟩
      rw [eq] at left still
      have counts := left.settleAll g still
      simp only [run, peel, first, List.head?_cons, wiring_outgoing, wiring_graph]
      congr 1
      refine ih counts (still.mono fun m => Nat.le_add_right _ _) fun m hm => ?_
      obtain ⟨ne, hm⟩ := nodup.mem_erase_iff.1 hm
      rw [filter_source_of_ne ne, sources m hm]

theorem nodes_sorted : g.nodes.Pairwise (· < ·) := List.pairwise_lt_range.filter _

theorem mem_nodes {n : Nat} : n ∈ g.nodes ↔ (g.node? n).isSome := by
  simp only [nodes, List.mem_filter, List.mem_range]
  exact ⟨And.right, fun h => ⟨lt_size_of_isSome g h, h⟩⟩

/-- The order is that in which the graph is peeled. -/
theorem order_eq_peel : g.order = peel g.nodes.length g.nodes g.edges := by
  have degree (m : Nat) : (g.wiring.ins.map List.length)[m]? =
      if m < g.slots.size then some (inDegree g.edges m) else none := by
    by_cases h : m < g.slots.size
    · simp [wiring, Edge.getElem?_group _ _ _ h, h, inDegree, List.countP_eq_length_filter]
    · have : g.wiring.ins[m]? = none := by simp [wiring, Edge.size_group, Nat.le_of_not_lt h]
      simp [this, h]
  refine Frontier.run_eq_peel g ⟨degree, List.filter_congr fun m hm => ?_⟩
    ⟨g.nodes_sorted, fun m hm => g.mem_nodes.1 hm, fun m hm _ => g.mem_nodes.2 hm⟩
    fun m _ => rfl
  have := lt_size_of_isSome g (g.mem_nodes.1 hm)
  simp [Array.getD_eq_getD_getElem?, degree, this]

end Graph

end CircuitRouting
