import CircuitRouting.Proofs.Dag.Intact
import CircuitRouting.Proofs.Schedule
import Mathlib.Order.Bounds.Basic

/-!
# Chains of operations

A chain before a node is made of operations each of which leads to the next, and the last of them to the
node. In an intact graph the depth that an operation has when it starts to wait is the length of the
longest chain before it, and the depth of the graph is that of the deepest operation, counted with it.
-/

namespace CircuitRouting.Dag

variable {d : Dag} {δ : Nat → Nat} {n m k : Nat} {i : Instruction} {x : Edge}

-- How many operations there are in a chain before a node.
inductive Chain (d : Dag) : (length node : Nat) → Prop
  | start (n : Nat) : Chain d 0 n
  | step {k m n : Nat} : Chain d k m → (d.instruction? m).isSome → d.Leads m n → Chain d (k + 1) n

def LongestChain (d : Dag) (k n : Nat) : Prop :=
  IsGreatest {k | d.Chain k n} k

namespace Depths

section Tied

variable (depths : d.Depths δ) (h : d.Tied)
include depths h

theorem lt_of_leads (om : (d.instruction? m).isSome) (on : (d.instruction? n).isSome)
    (leads : d.Leads m n) : δ m < δ n := by
  have ⟨i, hi⟩ := Option.isSome_iff_exists.mp on
  have ⟨⟨s, t, w⟩, edge, source, target⟩ := leads
  have pred := (h.before hi).mpr ⟨om, w, source ▸ target ▸ edge⟩
  exact (depths.chain n i hi (δ n)).mp le_rfl m pred

theorem le_of_chain (chain : d.Chain k n) (op : (d.instruction? n).isSome) : k ≤ δ n := by
  induction chain
  case start => exact Nat.zero_le _
  case step om leads hi => exact Nat.lt_of_le_of_lt (hi om) (depths.lt_of_leads h om op leads)

-- An operation that is not the first of a chain comes after one that is one step less deep.
theorem exists_chain (op : (d.instruction? n).isSome) : d.Chain (δ n) n := by
  generalize eq : δ n = k
  induction k generalizing n
  case zero => exact .start n
  case succ k hi =>
    have ⟨i, found⟩ := Option.isSome_iff_exists.mp op
    have deep := mt (depths.chain n i found k).mpr (by omega)
    push Not at deep
    have ⟨m, pred, le⟩ := deep
    have ⟨om, w, edge⟩ := (h.before found).mp pred
    have leads : d.Leads m n := ⟨_, edge, rfl, rfl⟩
    have lt := depths.lt_of_leads h om op leads
    exact .step (hi om (by omega)) om leads

theorem longestChain_iff (op : (d.instruction? n).isSome) : d.LongestChain k n ↔ δ n = k := by
  have longest : d.LongestChain (δ n) n :=
    ⟨depths.exists_chain h op, fun k chain => depths.le_of_chain h chain op⟩
  exact ⟨longest.unique, fun eq => eq ▸ longest⟩

end Tied

end Depths

-- The greatest depth in a table among the nodes just before a node.
def depthBefore (d : Dag) (table : Array Nat) (n : Nat) : Nat :=
  (d.graph.incoming n).foldl (fun m x => max m (table.getD x.source 0)) 0

section Table

variable {table : Array Nat}

theorem depthBefore_le_iff : d.depthBefore table n ≤ k ↔
    ∀ x ∈ d.graph.edges, x.target = n → table.getD x.source 0 ≤ k := by
  rw [depthBefore, foldl_max_le_iff]
  simp [Graph.incoming]

theorem deepen_eq : d.wiring.deepen table n = table.setIfInBounds n
    (if (d.instruction? n).isSome then d.depthBefore table n + 1 else d.depthBefore table n) := by
  rw [Wiring.deepen, wiring, Graph.wiring_incoming]
  rfl

theorem getD_deepen_self (lt : n < table.size) : (d.wiring.deepen table n).getD n 0 =
    if (d.instruction? n).isSome then d.depthBefore table n + 1 else d.depthBefore table n := by
  simp [deepen_eq, Array.getD_eq_getD_getElem?, lt]

theorem getD_deepen_of_ne (ne : m ≠ n) :
    (d.wiring.deepen table n).getD m 0 = table.getD m 0 := by
  simp [deepen_eq, Array.getD_eq_getD_getElem?, ne.symm]

end Table

-- The table of depths when some nodes are done: an operation counts itself, nothing leads to an input,
-- and no depth is above those of the operations.
structure Tabled (d : Dag) (δ : Nat → Nat) (done : List Nat) (table : Array Nat) : Prop where
  size : table.size = d.graph.slots.size
  ops : ∀ n ∈ done, (d.instruction? n).isSome → table.getD n 0 = δ n + 1
  inputs : ∀ n, ¬(d.instruction? n).isSome → d.graph.incoming n = [] → table.getD n 0 = 0
  bound : ∀ k, (∀ n, (d.instruction? n).isSome → δ n < k) → ∀ n, table.getD n 0 ≤ k

namespace Tabled

variable {done rest : List Nat} {table : Array Nat}

theorem start : d.Tabled δ [] (Array.replicate d.graph.slots.size 0) := by
  have zero : ∀ n, (Array.replicate d.graph.slots.size 0).getD n 0 = 0 := by
    intro n
    rw [Array.getD_eq_getD_getElem?, Array.getElem?_replicate]
    split <;> rfl
  exact ⟨by simp, by simp, fun n _ _ => zero n, fun k _ n => by simp [zero]⟩

variable (t : d.Tabled δ done table) (h : d.Intact) (verified : d.verify = .ok ())
  (depths : d.Depths δ)
include t h verified depths

-- Before an operation there are operations that are done, and inputs.
theorem depthBefore_eq (found : d.instruction? n = some i)
    (sources : ∀ x ∈ d.graph.edges, x.target = n → x.source ∈ done) : d.depthBefore table n = δ n := by
  refine eq_of_forall_ge_iff fun k => ?_
  rw [depthBefore_le_iff, depths.chain n i found]
  simp only [(h.tied verified).before found]
  constructor
  case mp =>
    rintro le m ⟨op, w, edge⟩
    have lt := le _ edge rfl
    rwa [t.ops m (sources _ edge rfl) op] at lt
  case mpr =>
    intro lt x hx target
    by_cases op : (d.instruction? x.source).isSome
    case pos =>
      rw [t.ops x.source (sources x hx target) op]
      exact lt x.source ⟨op, x.wire, target ▸ hx⟩
    case neg => simp [t.inputs x.source op (h.incoming_source hx op)]

theorem deepen (node : (d.node? n).isSome)
    (sources : ∀ x ∈ d.graph.edges, x.target = n → x.source ∈ done) :
    d.Tabled δ (done ++ [n]) (d.wiring.deepen table n) := by
  have lt : n < table.size := t.size ▸ d.graph.lt_size_of_isSome node
  have self (op : (d.instruction? n).isSome) : (d.wiring.deepen table n).getD n 0 = δ n + 1 := by
    have ⟨i, found⟩ := Option.isSome_iff_exists.mp op
    rw [getD_deepen_self lt, if_pos op, t.depthBefore_eq h verified depths found sources]
  refine ⟨by simpa [deepen_eq] using t.size, fun m hm op => ?_, fun m none empty => ?_,
    fun k deep m => ?_⟩
  case refine_1 =>
    by_cases same : m = n
    case pos => exact same ▸ self (same ▸ op)
    case neg =>
      have hm : m ∈ done := (List.mem_append.mp hm).resolve_right (by simpa using same)
      rw [getD_deepen_of_ne same, t.ops m hm op]
  case refine_2 =>
    by_cases same : m = n
    case pos =>
      rw [same] at none empty ⊢
      rw [getD_deepen_self lt, if_neg none, depthBefore, empty]
      rfl
    case neg => rw [getD_deepen_of_ne same, t.inputs m none empty]
  case refine_3 =>
    by_cases same : m = n
    case pos =>
      rw [same]
      by_cases op : (d.instruction? n).isSome
      case pos => exact self op ▸ deep n op
      case neg =>
        rw [getD_deepen_self lt, if_neg op, depthBefore_le_iff]
        exact fun x _ _ => t.bound k deep x.source
    case neg =>
      rw [getD_deepen_of_ne same]
      exact t.bound k deep m

theorem foldl_deepen (split : d.order = done ++ rest) :
    d.Tabled δ d.order (rest.foldl d.wiring.deepen table) := by
  induction rest generalizing done table
  case nil => simpa [split] using t
  case cons n rest hi =>
    have node : (d.node? n).isSome := (mem_order_of_verify verified).mp (by simp [split])
    have peel : Graph.peel _ _ _ = done ++ n :: rest := d.graph.order_eq_peel.symm.trans split
    have deeper := t.deepen h verified depths node fun x hx => Graph.source_mem_of_peel_eq peel hx
    exact hi deeper (by simp [split])

end Tabled

-- The depth of a graph is the number of operations on its longest chain.
theorem Depths.depth_le_iff (depths : d.Depths δ) (h : d.Intact) (verified : d.verify = .ok ()) :
    d.depth ≤ k ↔ ∀ n, (d.instruction? n).isSome → δ n < k := by
  have t := Tabled.start.foldl_deepen h verified depths (List.nil_append d.order).symm
  rw [depth, ← Array.foldl_toList]
  generalize List.foldl d.wiring.deepen _ _ = table at t ⊢
  have max : table.toList.foldl max 0 ≤ k ↔ 0 ≤ k ∧ ∀ a ∈ table.toList, a ≤ k :=
    foldl_max_le_iff (f := id)
  simp only [max, Nat.zero_le, true_and, Array.mem_toList_iff]
  constructor
  case mp =>
    intro le n op
    have node := isSome_of_instruction? op
    have lt : n < table.size := t.size ▸ d.graph.lt_size_of_isSome node
    have entry := t.ops n ((mem_order_of_verify verified).mpr node) op
    have le := le _ (Array.getElem_mem lt)
    rw [Array.getD, dif_pos lt, Array.getInternal_eq_getElem] at entry
    rwa [entry] at le
  case mpr =>
    intro deep a ha
    have ⟨n, lt, eq⟩ := Array.getElem_of_mem ha
    have le := t.bound k deep n
    rwa [Array.getD, dif_pos lt, Array.getInternal_eq_getElem, eq] at le

end CircuitRouting.Dag
