import CircuitRouting.Graph.Order
import Mathlib.Data.List.MinMax
import Mathlib.Data.List.Nodup

/-!
# Peeling a graph

The order in which a graph is peeled puts the source of each edge before its target. It takes all
nodes if their edges lead from a lower to a higher rank, and where edges lead from lower to higher
numbers it takes the nodes in ascending order.
-/

namespace CircuitRouting.Graph

variable {fuel n : Nat} {nodes u v : List Nat} {edges : List Edge} {e : Edge}

theorem peel_succ : peel (fuel + 1) nodes edges =
    match nodes.find? fun n => inDegree edges n == 0 with
    | none => []
    | some n => n :: peel fuel (nodes.erase n) (edges.filter fun e => e.source != n) :=
  rfl

theorem inDegree_eq_zero_iff : inDegree edges n = 0 ↔ ∀ e ∈ edges, e.target ≠ n := by
  simp [inDegree, List.countP_eq_zero]

theorem mem_of_mem_peel (h : n ∈ peel fuel nodes edges) : n ∈ nodes := by
  induction fuel generalizing nodes edges
  case zero => simp [peel] at h
  case succ fuel hi =>
    rw [peel_succ] at h
    split at h
    case h_1 => simp at h
    case h_2 m found =>
      cases List.mem_cons.mp h
      case inl h => exact h ▸ List.mem_of_find?_eq_some found
      case inr h => exact List.mem_of_mem_erase (hi h)

theorem nodup_peel (nodup : nodes.Nodup) : (peel fuel nodes edges).Nodup := by
  induction fuel generalizing nodes edges
  case zero => simp [peel]
  case succ fuel hi =>
    rw [peel_succ]
    split
    case h_1 => simp
    case h_2 m found =>
      refine List.nodup_cons.mpr ⟨fun h => ?_, hi (nodup.erase m)⟩
      exact nodup.not_mem_erase (mem_of_mem_peel h)

-- A node is taken only when the sources of its edges are gone.
theorem source_mem_of_peel_eq (eq : peel fuel nodes edges = u ++ n :: v) (he : e ∈ edges)
    (target : e.target = n) : e.source ∈ u := by
  induction fuel generalizing nodes edges u
  case zero => simp [peel] at eq
  case succ fuel hi =>
    rw [peel_succ] at eq
    split at eq
    case h_1 => simp at eq
    case h_2 m found =>
      have free := List.find?_some found
      simp only [beq_iff_eq, inDegree_eq_zero_iff] at free
      cases u <;> simp only [List.nil_append, List.cons_append, List.cons.injEq] at eq
      case nil => exact absurd (target.trans eq.1.symm) (free e he)
      case cons k u =>
        by_cases source : e.source = m
        case pos => simp [source, eq.1]
        case neg =>
          have stays : e ∈ edges.filter fun e => e.source != m := by simp [he, source]
          exact List.mem_cons_of_mem k (hi eq.2 stays)

-- What a node is taken from starts in the others.
theorem sources_erase (sources : ∀ e ∈ edges, e.source ∈ nodes) (k : Nat) :
    ∀ e ∈ edges.filter (fun e => e.source != k), e.source ∈ nodes.erase k := by
  intro e he
  simp only [List.mem_filter, bne_iff_ne] at he
  exact (List.mem_erase_of_ne he.2).mpr (sources e he.1)

-- Among nodes with a rank, one of the lowest is ready.
theorem length_peel (rank : Nat → Nat) (nodup : nodes.Nodup)
    (ascending : ∀ e ∈ edges, e.target ∈ nodes →
      e.source ∈ nodes ∧ rank e.source < rank e.target) :
    (peel nodes.length nodes edges).length = nodes.length := by
  generalize eq : nodes.length = fuel
  induction fuel generalizing nodes edges
  case zero => simp [peel]
  case succ fuel hi =>
    obtain ⟨m, hm, lowest⟩ : ∃ m ∈ nodes, ∀ k ∈ nodes, rank m ≤ rank k := by
      cases found : nodes.argmin rank
      case none => simp [List.argmin_eq_none.mp found] at eq
      case some m => exact ⟨m, List.argmin_mem found, fun k hk => List.le_of_mem_argmin hk found⟩
    have ready : inDegree edges m = 0 := by
      refine inDegree_eq_zero_iff.mpr fun e he target => ?_
      obtain ⟨source, lt⟩ := ascending e he (target ▸ hm)
      have le := lowest e.source source
      rw [target] at lt
      omega
    rw [peel_succ]
    split
    case h_1 none =>
      have := List.find?_eq_none.mp none m hm
      simp [ready] at this
    case h_2 k found =>
      have hk := List.mem_of_find?_eq_some found
      have len : (nodes.erase k).length = fuel := by simp [List.length_erase_of_mem hk, eq]
      have later : ∀ e ∈ edges.filter (fun e => e.source != k), e.target ∈ nodes.erase k →
          e.source ∈ nodes.erase k ∧ rank e.source < rank e.target := by
        intro e he target
        simp only [List.mem_filter, bne_iff_ne] at he
        obtain ⟨source, lt⟩ := ascending e he.1 (List.mem_of_mem_erase target)
        exact ⟨(List.mem_erase_of_ne he.2).mpr source, lt⟩
      simp [hi (nodup.erase k) later len]

theorem find?_le {p : Nat → Bool} {m k : Nat} (sorted : nodes.Pairwise (· < ·))
    (found : nodes.find? p = some m) (hk : k ∈ nodes) (hp : p k) : m ≤ k := by
  have ⟨_, l, r, eq, unready⟩ := List.find?_eq_some_iff_append.mp found
  rw [eq, List.pairwise_append, List.pairwise_cons] at sorted
  rw [eq, List.mem_append, List.mem_cons] at hk
  rcases hk with hk | rfl | hk
  · simpa [hp] using unready k hk
  · exact le_rfl
  · exact Nat.le_of_lt (sorted.2.1.1 k hk)

-- Below each node there is one that is ready, since the numbers do not descend for ever.
theorem exists_ready_le {p : Nat → Bool} {k : Nat} (sources : ∀ e ∈ edges, e.source ∈ nodes)
    (ascending : ∀ e ∈ edges, p e.target → p e.source ∧ e.source < e.target) (hk : k ∈ nodes)
    (hp : p k) : ∃ m ∈ nodes, m ≤ k ∧ inDegree edges m = 0 := by
  induction k using Nat.strongRecOn
  case ind k hi =>
    by_cases ready : inDegree edges k = 0
    case pos => exact ⟨k, hk, le_rfl, ready⟩
    case neg =>
      simp only [inDegree_eq_zero_iff, not_forall, not_not] at ready
      have ⟨e, he, target⟩ := ready
      have ⟨hs, lt⟩ := ascending e he (target ▸ hp)
      have ⟨m, hm, le, ready⟩ := hi e.source (target ▸ lt) (sources e he) hs
      exact ⟨m, hm, by omega, ready⟩

-- What is taken first is below all that is left, as far as edges lead from lower numbers to higher.
theorem pairwise_filter_peel {p : Nat → Bool} (sorted : nodes.Pairwise (· < ·))
    (sources : ∀ e ∈ edges, e.source ∈ nodes)
    (ascending : ∀ e ∈ edges, p e.target → p e.source ∧ e.source < e.target) :
    ((peel fuel nodes edges).filter p).Pairwise (· < ·) := by
  induction fuel generalizing nodes edges
  case zero => simp [peel]
  case succ fuel hi =>
    rw [peel_succ]
    split
    case h_1 => simp
    case h_2 m found =>
      have rest := hi (sorted.sublist List.erase_sublist) (sources_erase sources m)
        fun e he => ascending e (List.mem_filter.mp he).1
      by_cases hp : p m
      case neg => simpa [hp] using rest
      case pos =>
        rw [List.filter_cons_of_pos hp]
        refine List.pairwise_cons.mpr ⟨fun k hk => ?_, rest⟩
        obtain ⟨hk, pk⟩ := List.mem_filter.mp hk
        have nodup : nodes.Nodup := sorted.imp Nat.ne_of_lt
        have hk := nodup.mem_erase_iff.mp (mem_of_mem_peel hk)
        obtain ⟨j, hj, le, ready⟩ := exists_ready_le sources ascending hk.2 pk
        have := find?_le sorted found hj (by simp [ready])
        omega

end CircuitRouting.Graph
