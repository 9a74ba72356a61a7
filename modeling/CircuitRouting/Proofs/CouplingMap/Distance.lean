import CircuitRouting.CouplingMap.Distance
import CircuitRouting.Proofs.CouplingMap.Connectivity
import CircuitRouting.Proofs.Keyed
import Mathlib.Data.List.Perm.Subperm

/-!
# Searches on a device

A search visits every qubit that is joined with its source, each once. A visited qubit other than the
source is a neighbour of the qubit that it was reached from, which is one step nearer, and no neighbour
of a visited qubit is more than one step further.
-/

namespace CircuitRouting.CouplingMap

open Relation

variable {next : Nat → List Nat} {source n fuel : Nat} {done queue tree : List Visit}
  {seen : List Nat} {v : Visit}

-- A visit is the start, or comes one step after another one.
def Follows (next : Nat → List Nat) (source : Nat) (tree : List Visit) (v : Visit) : Prop :=
  v = ⟨source, 0, source⟩ ∨
    ∃ u ∈ tree, u.qubit = v.parent ∧ v.qubit ∈ next u.qubit ∧ v.distance = u.distance + 1

theorem Follows.mono {tree' : List Visit} (h : Follows next source tree v) (sub : tree ⊆ tree') :
    Follows next source tree' v :=
  h.imp_right fun ⟨u, hu, rest⟩ => ⟨u, sub hu, rest⟩

-- What holds of the visits so far and those in the queue.
structure Exploring (next : Nat → List Nat) (source n : Nat) (done queue : List Visit)
    (seen : List Nat) : Prop where
  seen : ∀ q, q ∈ seen ↔ q ∈ (done ++ queue).map Visit.qubit
  nodup : ((done ++ queue).map Visit.qubit).Nodup
  inside : ∀ v ∈ done ++ queue, v.qubit < n
  closed : ∀ v ∈ done, ∀ q ∈ next v.qubit,
    ∃ u ∈ done ++ queue, u.qubit = q ∧ u.distance ≤ v.distance + 1
  sorted : queue.Pairwise (·.distance ≤ ·.distance)
  level : ∀ v ∈ queue, ∀ u ∈ done ++ queue, u.distance ≤ v.distance + 1
  follows : ∀ v ∈ done ++ queue, Follows next source (done ++ queue) v
  root : ⟨source, 0, source⟩ ∈ done ++ queue

-- What holds of all visits of a search.
structure Searched (next : Nat → List Nat) (source : Nat) (tree : List Visit) : Prop where
  nodup : (tree.map Visit.qubit).Nodup
  closed : ∀ v ∈ tree, ∀ q ∈ next v.qubit, ∃ u ∈ tree, u.qubit = q ∧ u.distance ≤ v.distance + 1
  follows : ∀ v ∈ tree, Follows next source tree v
  root : ⟨source, 0, source⟩ ∈ tree

namespace Exploring

theorem searched (h : Exploring next source n done [] seen) : Searched next source done where
  nodup := by simpa using h.nodup
  closed := by simpa using h.closed
  follows := by simpa using h.follows
  root := by simpa using h.root

-- If all qubits are done, none is left in the queue.
theorem queue_eq_nil (h : Exploring next source n done queue seen) (len : n ≤ done.length) :
    queue = [] := by
  have sub : (done ++ queue).map Visit.qubit ⊆ List.range n := by
    intro q hq
    have ⟨v, hv, eq⟩ := List.mem_map.mp hq
    exact List.mem_range.mpr (eq ▸ h.inside v hv)
  have le := (List.Nodup.subperm h.nodup sub).length_le
  simp only [List.length_map, List.length_append, List.length_range] at le
  exact List.eq_nil_of_length_eq_zero (by omega)

-- The visits that join the queue after a visit: those of its neighbours that are new.
def joining (next : Nat → List Nat) (seen : List Nat) (v : Visit) : List Visit :=
  ((next v.qubit).filter fun q => !seen.contains q).map fun q => ⟨q, v.distance + 1, v.qubit⟩

section Step

variable {u x : Visit} (h : Exploring next source n done (v :: queue) seen)
include h

theorem mem_joining : u ∈ joining next seen v ↔
    u.qubit ∈ next v.qubit ∧ u.qubit ∉ (done ++ v :: queue).map Visit.qubit ∧
      u.distance = v.distance + 1 ∧ u.parent = v.qubit := by
  rw [joining, List.mem_map]
  simp only [List.mem_filter, List.contains_eq_mem, Bool.not_eq_true', decide_eq_false_iff_not, h.seen]
  constructor
  case mp =>
    rintro ⟨q, ⟨near, new⟩, rfl⟩
    exact ⟨near, new, rfl, rfl⟩
  case mpr =>
    obtain ⟨q, distance, parent⟩ := u
    rintro ⟨near, new, rfl, rfl⟩
    exact ⟨q, ⟨near, new⟩, rfl⟩

theorem nodup_step (distinct : ∀ q, (next q).Nodup) :
    ((done ++ v :: queue ++ joining next seen v).map Visit.qubit).Nodup := by
  rw [List.map_append]
  refine List.nodup_append.mpr ⟨h.nodup, ?_, ?_⟩
  case refine_1 =>
    rw [joining, List.map_map]
    simpa [Function.comp_def] using (distinct v.qubit).filter _
  case refine_2 =>
    rintro a ha b hb rfl
    obtain ⟨u, hu, rfl⟩ := List.mem_map.mp hb
    exact (h.mem_joining.mp hu).2.1 ha

-- Every neighbour of the visited qubit has been seen or joins the queue.
theorem closed_step {q : Nat} (hu : u ∈ done ++ [v]) (hq : q ∈ next u.qubit) :
    ∃ x ∈ done ++ v :: queue ++ joining next seen v, x.qubit = q ∧ x.distance ≤ u.distance + 1 := by
  cases List.mem_append.mp hu
  case inl hu =>
    have ⟨x, hx, near⟩ := h.closed u hu q hq
    exact ⟨x, List.mem_append_left _ hx, near⟩
  case inr hu =>
    cases List.mem_singleton.mp hu
    by_cases old : q ∈ (done ++ v :: queue).map Visit.qubit
    case pos =>
      have ⟨x, hx, eq⟩ := List.mem_map.mp old
      exact ⟨x, List.mem_append_left _ hx, eq, h.level v (by simp) x hx⟩
    case neg =>
      have joins : ⟨q, v.distance + 1, v.qubit⟩ ∈ joining next seen v :=
        h.mem_joining.mpr ⟨hq, old, rfl, rfl⟩
      exact ⟨_, List.mem_append_right _ joins, rfl, Nat.le_refl _⟩

theorem sorted_step : (queue ++ joining next seen v).Pairwise (·.distance ≤ ·.distance) := by
  refine List.pairwise_append.mpr ⟨(List.pairwise_cons.mp h.sorted).2, ?_, fun u hu x hx => ?_⟩
  case refine_1 => exact List.pairwise_map.mpr (List.pairwise_of_forall fun _ _ => Nat.le_refl _)
  case refine_2 => exact (h.mem_joining.mp hx).2.2.1 ▸ h.level v (by simp) u (by simp [hu])

theorem level_step (hu : u ∈ queue ++ joining next seen v)
    (hx : x ∈ done ++ v :: queue ++ joining next seen v) : x.distance ≤ u.distance + 1 := by
  have low : v.distance ≤ u.distance := by
    cases List.mem_append.mp hu
    case inl hu => exact (List.pairwise_cons.mp h.sorted).1 u hu
    case inr hu => exact (h.mem_joining.mp hu).2.2.1 ▸ Nat.le_succ _
  cases List.mem_append.mp hx
  case inl hx => exact (h.level v (by simp) x hx).trans (Nat.succ_le_succ low)
  case inr hx => exact (h.mem_joining.mp hx).2.2.1 ▸ Nat.succ_le_succ low

theorem follows_step (hu : u ∈ done ++ v :: queue ++ joining next seen v) :
    Follows next source (done ++ v :: queue ++ joining next seen v) u := by
  cases List.mem_append.mp hu
  case inl hu => exact (h.follows u hu).mono (List.subset_append_left _ _)
  case inr hu =>
    have ⟨near, _, distance, parent⟩ := h.mem_joining.mp hu
    exact .inr ⟨v, by simp, parent.symm, near, distance⟩

-- The first of the queue is visited, and its neighbours that are new join the queue.
theorem step (within : ∀ q < n, ∀ p ∈ next q, p < n) (distinct : ∀ q, (next q).Nodup) :
    Exploring next source n (done ++ [v]) (queue ++ joining next seen v)
      ((joining next seen v).map Visit.qubit ++ seen) := by
  have whole : (done ++ [v]) ++ (queue ++ joining next seen v) =
      done ++ v :: queue ++ joining next seen v := by simp
  refine ⟨fun q => ?_, whole ▸ h.nodup_step distinct, whole ▸ fun u hu => ?_,
    whole ▸ fun u hu q => h.closed_step hu, h.sorted_step, whole ▸ fun u hu x => h.level_step hu,
    whole ▸ fun u => h.follows_step, whole ▸ List.mem_append_left _ h.root⟩
  case refine_1 =>
    rw [whole, List.map_append, List.mem_append, List.mem_append, h.seen]
    exact or_comm
  case refine_2 =>
    cases List.mem_append.mp hu
    case inl hu => exact h.inside u hu
    case inr hu => exact within v.qubit (h.inside v (by simp)) _ (h.mem_joining.mp hu).1

end Step

theorem explore (h : Exploring next source n done queue seen) (len : n ≤ done.length + fuel)
    (within : ∀ q < n, ∀ p ∈ next q, p < n) (distinct : ∀ q, (next q).Nodup) :
    Searched next source (done ++ explore next fuel queue seen) := by
  induction fuel generalizing done queue seen
  case zero =>
    have none := h.queue_eq_nil (by omega)
    subst none
    simpa [CouplingMap.explore] using h.searched
  case succ fuel hi =>
    cases queue
    case nil => simpa [CouplingMap.explore] using h.searched
    case cons v queue =>
      have rest := hi (h.step within distinct) (by simp; omega)
      simpa [CouplingMap.explore, joining, Function.comp_def] using rest

end Exploring

namespace Searched

theorem visit?_eq_some_iff {q : Nat} (h : Searched next source tree) :
    visit? tree q = some v ↔ v ∈ tree ∧ v.qubit = q :=
  find?_key_eq_some_iff h.nodup

-- A search leaves out nothing that it can reach.
theorem exists_visit {q : Nat} (h : Searched next source tree)
    (reach : ReflTransGen (fun a b => b ∈ next a) source q) : ∃ v ∈ tree, v.qubit = q := by
  induction reach
  case refl => exact ⟨_, h.root, rfl⟩
  case tail step hi =>
    have ⟨v, mem, eq⟩ := hi
    subst eq
    have ⟨u, mem', eq, _⟩ := h.closed v mem _ step
    exact ⟨u, mem', eq⟩

end Searched

variable {m : CouplingMap} {a b d p q : Nat}

theorem nodup_neighbors (m : CouplingMap) (q : Nat) : (m.neighbors q).Nodup :=
  natLt_separating.nodup_sortUnique _

theorem searched (ha : a < m.numQubits) : Searched m.neighbors a (m.searchFrom a) := by
  have start : Exploring m.neighbors a m.numQubits [] [⟨a, 0, a⟩] [a] :=
    ⟨by simp, by simp, by simpa using ha, by simp, by simp, by simp, by simp [Follows], by simp⟩
  refine start.explore (by simp) (fun q _ p hp => ?_) m.nodup_neighbors
  exact (inside_of_coupled (mem_neighbors.mp hp)).2.1

theorem distance_eq_some_iff : m.distance a b = some d ↔
    a < m.numQubits ∧ ∃ v ∈ m.searchFrom a, v.qubit = b ∧ v.distance = d := by
  rw [distance]
  split
  case isFalse outside => simp [outside]
  case isTrue ha =>
    simp only [Option.map_eq_some_iff, (searched ha).visit?_eq_some_iff, ha, true_and, and_assoc]

theorem distance_self (ha : a < m.numQubits) : m.distance a a = some 0 :=
  distance_eq_some_iff.mpr ⟨ha, _, (searched ha).root, rfl, rfl⟩

theorem exists_distance (ha : a < m.numQubits) (joined : ReflTransGen (m.coupled · ·) a b) :
    ∃ d, m.distance a b = some d := by
  have reach := ReflTransGen.mono (fun _ _ h => mem_neighbors.mpr h) _ _ joined
  have ⟨v, mem, eq⟩ := (searched ha).exists_visit reach
  exact ⟨v.distance, distance_eq_some_iff.mpr ⟨ha, v, mem, eq, rfl⟩⟩

-- What is visited after the start has a parent that is one step nearer.
theorem exists_parent (h : m.distance a b = some (d + 1)) :
    ∃ v, visit? (m.searchFrom a) b = some v ∧ m.distance a v.parent = some d ∧
      m.coupled v.parent b := by
  have ⟨ha, v, mem, eq, eq'⟩ := distance_eq_some_iff.mp h
  cases (searched ha).follows v mem
  case inl start =>
    subst start
    contradiction
  case inr step =>
    have ⟨u, mem', parent, adjacent, after⟩ := step
    refine ⟨v, (searched ha).visit?_eq_some_iff.mpr ⟨mem, eq⟩, ?_, ?_⟩
    case refine_1 => exact distance_eq_some_iff.mpr ⟨ha, u, mem', parent, by omega⟩
    case refine_2 => exact parent ▸ eq ▸ mem_neighbors.mp adjacent

theorem eq_of_distance_zero (h : m.distance a b = some 0) : a = b := by
  have ⟨ha, v, mem, eq, eq'⟩ := distance_eq_some_iff.mp h
  cases (searched ha).follows v mem
  case inl start =>
    subst start
    exact eq
  case inr step =>
    have ⟨_, _, _, _, after⟩ := step
    omega

theorem coupled_of_distance_one (h : m.distance a b = some 1) : m.coupled a b := by
  have ⟨v, _, near, coupled⟩ := exists_parent h
  exact eq_of_distance_zero near ▸ coupled

-- On the way to a qubit every smaller distance occurs.
theorem exists_distance_of_le {k : Nat} (h : m.distance a b = some d) (le : k ≤ d) :
    ∃ p, m.distance a p = some k := by
  induction d generalizing b
  case zero => exact ⟨b, by simpa [Nat.le_zero.mp le] using h⟩
  case succ d hi =>
    cases Nat.lt_or_eq_of_le le
    case inr eq => exact ⟨b, eq ▸ h⟩
    case inl lt =>
      have ⟨v, _, near, _⟩ := exists_parent h
      exact hi near (by omega)

-- A distance is less than the number of qubits that can be reached.
theorem distance_lt_length {s : List Nat} (h : m.distance a b = some d)
    (covers : ∀ p k, m.distance a p = some k → p ∈ s) : d < s.length := by
  have sub : List.range (d + 1) ⊆ s.filterMap (m.distance a) := by
    intro k hk
    have lt := List.mem_range.mp hk
    have ⟨p, eq⟩ := exists_distance_of_le (k := k) h (by omega)
    exact List.mem_filterMap.mpr ⟨p, covers p k eq, eq⟩
  have le := (List.Nodup.subperm List.nodup_range sub).length_le
  rw [List.length_range] at le
  exact Nat.lt_of_lt_of_le le (List.length_filterMap_le _ _)

-- Qubits that are joined among themselves and with no others.
structure Spanned (m : CouplingMap) (s : List Nat) : Prop where
  inside : ∀ q ∈ s, q < m.numQubits
  closed : ∀ a b, m.coupled a b → a ∈ s ∧ b ∈ s
  joined : ∀ a ∈ s, ∀ b ∈ s, ReflTransGen (m.coupled · ·) a b

theorem Spanned.exists_distance {s : List Nat} (h : m.Spanned s) (ha : a ∈ s) (hb : b ∈ s) :
    ∃ d, m.distance a b = some d ∧ d < s.length := by
  have ⟨d, eq⟩ := CouplingMap.exists_distance (h.inside a ha) (h.joined a ha b hb)
  refine ⟨d, eq, distance_lt_length eq fun p k found => ?_⟩
  cases k
  case zero => exact eq_of_distance_zero found ▸ ha
  case succ k =>
    have ⟨_, _, _, coupled⟩ := exists_parent found
    exact (h.closed _ _ coupled).2

theorem coupled_induced {s : List Nat} :
    (m.induced s).coupled a b ↔ a ∈ s ∧ b ∈ s ∧ m.coupled a b := by
  simp only [coupled, hasEdge, induced, build, Bool.or_eq_true, List.contains_iff_mem,
    pairLt_separating.mem_sortUnique, List.mem_filter, Bool.and_eq_true]
  tauto

-- A connected set spans the edges among its members.
theorem spanned_induced {s : List Nat} (h : m.isConnectedSubset s) : (m.induced s).Spanned s where
  inside := (isConnectedSubset_iff.mp h).1
  closed _ _ coupled := ⟨(coupled_induced.mp coupled).1, (coupled_induced.mp coupled).2.1⟩
  joined a ha b hb := ReflTransGen.mono (fun _ _ step => coupled_induced.mpr step) _ _
    ((isConnectedSubset_iff.mp h).2 a ha b hb)

theorem mem_undirectedEdges {e : Nat × Nat} :
    e ∈ m.undirectedEdges ↔ e.1 < e.2 ∧ m.coupled e.1 e.2 := by
  rw [undirectedEdges, pairLt_separating.mem_sortUnique, List.mem_map]
  simp only [coupled, hasEdge, Bool.or_eq_true, List.contains_iff_mem]
  constructor
  case mp =>
    rintro ⟨⟨x, y⟩, mem, rfl⟩
    have ne := (m.inside _ mem).2.2
    grind
  case mpr =>
    rintro ⟨lt, mem | mem⟩
    · exact ⟨e, mem, by ext <;> simp <;> omega⟩
    · exact ⟨(e.2, e.1), mem, by ext <;> simp <;> omega⟩

end CircuitRouting.CouplingMap
