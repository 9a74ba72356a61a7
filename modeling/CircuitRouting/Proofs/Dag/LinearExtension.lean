import CircuitRouting.Proofs.Dag.Sound
import CircuitRouting.Proofs.Graph.Countdown
import Mathlib.Data.Finset.Card

/-!
# Linear extensions

A linear extension of a graph lists its nodes so that every edge leads forward. The topological order
of a graph without cycles is one, and the least of them in the dictionary order. It does not depend on
how the counts of edges are kept.
-/

namespace CircuitRouting

namespace Graph

variable {g : Graph} {nodes ns : List Nat} {edges : List Edge}

structure LinearExtension (g : Graph) (ns : List Nat) : Prop where
  perm : ns.Perm g.nodes
  forward : ∀ e ∈ g.edges, ns.idxOf e.source < ns.idxOf e.target

-- The first node of an order could be taken, so none above it is.
theorem peel_least (sorted : nodes.Pairwise (· < ·)) (perm : ns.Perm nodes)
    (forward : ∀ e ∈ edges, ns.idxOf e.source < ns.idxOf e.target) :
    peel ns.length nodes edges = ns ∨ List.Lex (· < ·) (peel ns.length nodes edges) ns := by
  induction ns generalizing nodes edges
  case nil => exact .inl rfl
  case cons n ns hi =>
    have hn : n ∈ nodes := perm.mem_iff.mp List.mem_cons_self
    have target : ∀ e ∈ edges, e.target ≠ n := fun e he eq => by simpa [eq] using forward e he
    have ready : inDegree edges n = 0 := inDegree_eq_zero_iff.mpr target
    rw [List.length_cons, peel_succ]
    cases found : nodes.find? fun n => inDegree edges n == 0
    case none => exact absurd ready (by simpa using List.find?_eq_none.mp found n hn)
    case some m =>
      cases Nat.lt_or_eq_of_le (find?_le sorted found hn (by simp [ready]))
      case inl lt => exact .inr (.rel lt)
      case inr eq =>
        subst eq
        have later : ∀ e ∈ edges.filter (fun e => e.source != m),
            ns.idxOf e.source < ns.idxOf e.target := by
          intro e he
          have ⟨he, ne⟩ := List.mem_filter.mp he
          have ne := (bne_iff_ne.mp ne).symm
          have lt := forward e he
          rw [List.idxOf_cons_ne _ ne, List.idxOf_cons_ne _ (target e he).symm] at lt
          exact Nat.lt_of_succ_lt_succ lt
        have rest := hi (sorted.erase m) (by simpa using perm.erase m) later
        exact rest.imp (congrArg _) .cons

theorem LinearExtension.order_least (h : g.LinearExtension ns) :
    g.order = ns ∨ List.Lex (· < ·) g.order ns := by
  rw [order_eq_peel, ← h.perm.length_eq]
  exact peel_least g.nodes_sorted h.perm h.forward

end Graph

namespace Dag

open Relation

variable {d : Dag}

open Classical in
-- The nodes from which a chain of edges leads to a node.
noncomputable def ancestors (d : Dag) (n : Nat) : Finset Nat :=
  d.graph.nodes.toFinset.filter (TransGen d.Leads · n)

theorem mem_ancestors {n m : Nat} : m ∈ d.ancestors n ↔ (d.node? m).isSome ∧ TransGen d.Leads m n := by
  simp only [ancestors, Finset.mem_filter, List.mem_toFinset, Graph.mem_nodes]
  rfl

-- Without a cycle, more nodes lead to the target of an edge than to its source.
theorem length_order_of_acyclic (acyclic : ∀ n, ¬TransGen d.Leads n n)
    (joined : ∀ e ∈ d.graph.edges, (d.node? e.source).isSome) :
    d.order.length = d.graph.nodes.length := by
  rw [order, Graph.order_eq_peel]
  refine Graph.length_peel (fun n => (d.ancestors n).card) (d.graph.nodes_sorted.imp Nat.ne_of_lt)
    fun e he _ => ⟨d.graph.mem_nodes.mpr (joined e he), Finset.card_lt_card ?_⟩
  have step : d.Leads e.source e.target := ⟨e, he, rfl, rfl⟩
  have subset : d.ancestors e.source ⊆ d.ancestors e.target := fun n hn =>
    mem_ancestors.mpr ((mem_ancestors.mp hn).imp_right (·.tail step))
  refine (Finset.ssubset_iff_of_subset subset).mpr ⟨e.source, ?_, fun hs => ?_⟩
  case refine_1 => exact mem_ancestors.mpr ⟨joined e he, .single step⟩
  case refine_2 => exact acyclic e.source (mem_ancestors.mp hs).2

theorem linearExtension_order (complete : d.order.length = d.graph.nodes.length)
    (joined : ∀ e ∈ d.graph.edges, (d.node? e.source).isSome) :
    d.graph.LinearExtension d.order where
  perm := (List.perm_ext_iff_of_nodup nodup_order (d.graph.nodes_sorted.imp Nat.ne_of_lt)).mpr fun n =>
    (mem_order_of_length complete).trans d.graph.mem_nodes.symm
  forward e he := by
    by_cases target : e.target ∈ d.order
    case pos => exact (idxOf_order_lt he target).2
    case neg =>
      rw [List.idxOf_eq_length target]
      exact List.idxOf_lt_length_of_mem ((mem_order_of_length complete).mpr (joined e he))

-- The order is the same however a table lists the nodes, and never counts an edge that is gone.
theorem order_least_extension (acyclic : ∀ n, ¬TransGen d.Leads n n)
    (joined : ∀ e ∈ d.graph.edges, (d.node? e.source).isSome) :
    d.graph.LinearExtension d.order ∧
      (∀ ns, d.graph.LinearExtension ns → d.order = ns ∨ List.Lex (· < ·) d.order ns) ∧
      ∀ listed, listed.Perm d.graph.nodes → d.graph.countdown listed = some d.order :=
  ⟨linearExtension_order (length_order_of_acyclic acyclic joined) joined,
    fun _ => Graph.LinearExtension.order_least, fun _ => Graph.countdown_eq_order⟩

theorem order_least_extension_braid :
    (∀ n, ¬TransGen (edited braid).Leads n n) ∧
    (∀ e ∈ (edited braid).graph.edges, ((edited braid).node? e.source).isSome) ∧
    (edited braid).graph.LinearExtension (edited braid).order ∧
    (∀ ns, (edited braid).graph.LinearExtension ns →
      (edited braid).order = ns ∨ List.Lex (· < ·) (edited braid).order ns) ∧
    ∀ listed, listed.Perm (edited braid).graph.nodes →
      (edited braid).graph.countdown listed = some (edited braid).order :=
  have once : ∀ edit ∈ braid, edit.Once := by decide
  have ⟨_, serial⟩ := exists_serial_edited once
  have acyclic := serial.sound.acyclic
  ⟨acyclic, by decide, order_least_extension acyclic (by decide)⟩

end Dag

end CircuitRouting
