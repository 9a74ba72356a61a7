import CircuitRouting.Graph
import Mathlib.Data.List.Basic
import Mathlib.Data.List.Nodup

/-!
# Numbers of nodes

A graph is tidy if the numbers it keeps for reuse are those without a node. In a tidy graph a node is
added under a number that no other node has, and the others stay as they are.
-/

namespace CircuitRouting.Graph

variable {g : Graph} {n m : Nat} {x : Node}

-- The freed numbers are those below the size that no node has, each once.
structure Tidy (g : Graph) : Prop where
  nodup : g.freed.Nodup
  mem_freed : ∀ n, n ∈ g.freed ↔ n < g.slots.size ∧ g.node? n = none

@[simp]
theorem node?_link (s t : Nat) (w : Wire) : (g.link s t w).node? n = g.node? n :=
  rfl

@[simp]
theorem node?_unlink (s t : Nat) (w : Wire) : (g.unlink s t w).node? n = g.node? n :=
  rfl

@[simp]
theorem edges_link (s t : Nat) (w : Wire) : (g.link s t w).edges = ⟨s, t, w⟩ :: g.edges :=
  rfl

@[simp]
theorem edges_add (x : Node) : (g.add x).edges = g.edges := by
  unfold add
  split <;> rfl

theorem node?_eq_none_of_size_le (h : g.slots.size ≤ n) : g.node? n = none := by
  simp [node?, h]

theorem instruction?_eq_some_iff {i : Instruction} :
    g.instruction? n = some i ↔ g.node? n = some (.op i) := by
  cases h : g.node? n
  case none => simp [instruction?, h]
  case some x => cases x <;> simp [instruction?, h, Node.instruction?]

theorem node?_remove (h : (g.node? n).isSome) :
    (g.remove n).node? m = if m = n then none else g.node? m := by
  have lt : n < g.slots.size := by
    by_contra hn
    simp [node?_eq_none_of_size_le (Nat.le_of_not_lt hn)] at h
  simp only [node?, remove, Array.getElem?_setIfInBounds]
  by_cases hm : n = m
  case pos => simp [← hm, lt]
  case neg => simp [hm, Ne.symm hm]

namespace Tidy

theorem empty : Tidy {} where
  nodup := .nil
  mem_freed n := by simp

-- Whether the numbers are well kept does not depend on the edges.
theorem congr {g' : Graph} (t : g.Tidy) (slots : g'.slots = g.slots) (freed : g'.freed = g.freed) :
    g'.Tidy where
  nodup := freed ▸ t.nodup
  mem_freed n := by rw [freed, t.mem_freed, Graph.node?, Graph.node?, slots]

theorem link (t : g.Tidy) (a b : Nat) (w : Wire) : (g.link a b w).Tidy :=
  t.congr rfl rfl

theorem unlink (t : g.Tidy) (a b : Nat) (w : Wire) : (g.unlink a b w).Tidy :=
  t.congr rfl rfl

theorem node?_nextNumber (t : g.Tidy) : g.node? g.nextNumber = none := by
  cases h : g.freed
  case nil => simp [nextNumber, h, node?]
  case cons n rest =>
    have := (t.mem_freed n).mp (by simp [h])
    simpa [nextNumber, h] using this.2

theorem node?_add (t : g.Tidy) (x : Node) :
    (g.add x).node? n = if n = g.nextNumber then some x else g.node? n := by
  cases h : g.freed
  case nil =>
    simp only [add, h, nextNumber, node?, List.headD_nil, Array.getElem?_push]
    split <;> simp_all
  case cons k rest =>
    have lt := (t.mem_freed k).mp (by simp [h])
    simp only [add, h, nextNumber, node?, List.headD_cons, Array.getElem?_setIfInBounds]
    by_cases hk : k = n
    case pos => simp [← hk, lt.1]
    case neg => simp [hk, Ne.symm hk]

theorem node?_add_of_isSome (t : g.Tidy) (x : Node) (h : (g.node? n).isSome) :
    (g.add x).node? n = g.node? n := by
  have ne : n ≠ g.nextNumber := by
    rintro rfl
    simp [t.node?_nextNumber] at h
  simp [t.node?_add, ne]

theorem add (t : g.Tidy) (x : Node) : (g.add x).Tidy := by
  have node := fun n => t.node?_add (n := n) x
  cases h : g.freed
  case nil =>
    have free := t.mem_freed
    simp only [h, List.not_mem_nil, false_iff, not_and] at free
    refine ⟨by simp [Graph.add, h], fun n => ?_⟩
    simp only [node, nextNumber, h, List.headD_nil]
    simp only [Graph.add, h, List.not_mem_nil, Array.size_push, false_iff, not_and]
    intro lt
    split
    case isTrue => simp
    case isFalse ne => exact free n (by omega)
  case cons k rest =>
    have nodup := t.nodup
    have free := t.mem_freed
    simp only [h, List.nodup_cons, List.mem_cons] at nodup free
    refine ⟨by simp [Graph.add, h, nodup.2], fun n => ?_⟩
    simp only [node, nextNumber, h, List.headD_cons]
    simp only [Graph.add, h, Array.size_setIfInBounds]
    split
    case isTrue eq => simp [eq, nodup.1]
    case isFalse ne => simpa [ne] using free n

theorem remove (t : g.Tidy) (h : (g.node? n).isSome) : (g.remove n).Tidy where
  nodup := by
    refine List.nodup_cons.mpr ⟨fun hn => ?_, t.nodup⟩
    simp [((t.mem_freed n).mp hn).2] at h
  mem_freed m := by
    have lt : n < g.slots.size := by
      by_contra hn
      simp [node?_eq_none_of_size_le (Nat.le_of_not_lt hn)] at h
    rw [node?_remove h]
    simp only [Graph.remove, List.mem_cons, Array.size_setIfInBounds, t.mem_freed]
    split
    case isTrue eq => simp [eq, lt]
    case isFalse ne => simp [ne]

end Tidy

end CircuitRouting.Graph
