import CircuitRouting.Proofs.CouplingMap.Walk

/-!
# Shortest paths

Climbing from a visited qubit to its parent, again and again, passes one qubit of each smaller distance
and ends at the source. So a shortest path is found whenever there is any walk, it has as many steps as
the distance says, and it visits no qubit twice.
-/

namespace CircuitRouting.CouplingMap

variable {m : CouplingMap} {a b d : Nat} {path : List Nat}

-- A way from one qubit to another along edges, which visits no qubit twice.
structure Path (m : CouplingMap) (a b : Nat) (path : List Nat) : Prop where
  head : path.head? = some a
  last : path.getLast? = some b
  nodup : path.Nodup
  steps : path.IsChain (m.coupled · ·)

-- The qubits of a path have the distances 0, 1, 2 and so on.
def Leveled (m : CouplingMap) (a d : Nat) (path : List Nat) : Prop :=
  path.map (m.distance a) = (List.range (d + 1)).map some

namespace Leveled

theorem length (h : m.Leveled a d path) : path.length = d + 1 := by
  simpa using congrArg List.length h

theorem nodup (h : m.Leveled a d path) : path.Nodup := by
  refine .of_map (m.distance a) ?_
  rw [h]
  exact List.nodup_range.map (Option.some_injective _)

theorem head (h : m.Leveled a d path) : path.head? = some a := by
  have first := congrArg List.head? h
  rw [List.range_succ_eq_map] at first
  cases path
  case nil => simp at first
  case cons p path =>
    simp only [List.map_cons, List.head?_cons, Option.some.injEq] at first
    rw [List.head?_cons, eq_of_distance_zero first]

theorem concat (h : m.Leveled a d path) (next : m.distance a b = some (d + 1)) :
    m.Leveled a (d + 1) (path ++ [b]) := by
  rw [Leveled, List.map_append, h, List.range_succ (n := d + 1), List.map_append]
  simp [next]

end Leveled

-- Climbing finds a qubit of each distance, and puts them before the rest.
theorem exists_climb (rest : List Nat) (h : m.distance a b = some d) :
    ∃ front, climb (m.searchFrom a) a d b rest = some (front ++ b :: rest) ∧
      m.Leveled a d (front ++ [b]) ∧ (front ++ [b]).IsChain (m.coupled · ·) := by
  induction d generalizing b rest
  case zero =>
    have eq := eq_of_distance_zero h
    exact ⟨[], by simp [climb, eq], by simp [Leveled, h], by simp⟩
  case succ d hi =>
    have ⟨v, found, near, coupled⟩ := exists_parent h
    have ne : b ≠ a := by
      rintro rfl
      have zero := distance_self (inside_of_coupled coupled).2.1
      simp [h] at zero
    have ⟨front, climbed, leveled, steps⟩ := hi (b :: rest) near
    refine ⟨front ++ [v.parent], ?_, leveled.concat h, ?_⟩
    case refine_1 =>
      rw [climb, if_neg ne, found, Option.bind_some, climbed]
      simp
    case refine_2 =>
      refine steps.append (.singleton b) fun p hp q hq => ?_
      simp only [List.getLast?_append, List.getLast?_singleton, Option.some_or, Option.mem_def,
        Option.some.injEq, List.head?_cons] at hp hq
      exact hp ▸ hq ▸ coupled

theorem exists_shortestPath (h : m.distance a b = some d) :
    ∃ path, m.shortestPath a b = some path ∧ path.length = d + 1 ∧ m.Path a b path := by
  have ⟨front, climbed, leveled, steps⟩ := exists_climb [] h
  refine ⟨front ++ [b], ?_, leveled.length, leveled.head, by simp, leveled.nodup, steps⟩
  rw [shortestPath, h, Option.bind_some, climbed]

-- Distances stay below the number of qubits, which leaves room for a mark of what is out of reach.
theorem distance_lt (h : m.distance a b = some d) : d < m.numQubits := by
  have reached : ∀ p k, m.distance a p = some k → p ∈ List.range m.numQubits := by
    intro p k found
    have ⟨ha, walk, _⟩ := distance_eq_some_iff_walk.mp found
    exact List.mem_range.mpr (walk.inside ha)
  simpa using distance_lt_length h reached

theorem distance_eq_none_iff :
    m.distance a b = none ↔ ¬(a < m.numQubits ∧ b < m.numQubits ∧ ∃ k, m.Walk k a b) := by
  rw [Option.eq_none_iff_forall_ne_some]
  constructor
  case mp =>
    rintro none ⟨ha, _, k, walk⟩
    have ⟨d, _, found⟩ := walk.exists_distance_le ha
    exact none d found
  case mpr =>
    intro apart d found
    have ⟨ha, walk, _⟩ := distance_eq_some_iff_walk.mp found
    exact apart ⟨ha, walk.inside ha, d, walk⟩

-- Distances and paths of any device, whatever the two qubits are.
theorem distance_and_path_exact (m : CouplingMap) (a b : Nat) :
    (∀ d, m.distance a b = some d ↔
      (a < m.numQubits ∧ b < m.numQubits) ∧ m.Walk d a b ∧ ∀ k, m.Walk k a b → d ≤ k) ∧
    (m.distance a b = none ↔ ¬(a < m.numQubits ∧ b < m.numQubits ∧ ∃ k, m.Walk k a b)) ∧
    (∀ d, m.distance a b = some d → d < m.numQubits ∧
      ∃ path, m.shortestPath a b = some path ∧ path.length = d + 1 ∧ m.Path a b path) ∧
    (m.distance a b = none → m.shortestPath a b = none) := by
  refine ⟨fun d => ?_, distance_eq_none_iff, fun d h => ⟨distance_lt h, exists_shortestPath h⟩,
    fun none => ?_⟩
  case refine_1 =>
    rw [distance_eq_some_iff_walk, and_assoc]
    refine and_congr_right fun ha => ⟨fun ⟨walk, least⟩ => ⟨walk.inside ha, walk, least⟩, And.right⟩
  case refine_2 => rw [shortestPath, none, Option.bind_none]

-- On a ring of six qubits there are two ways to the opposite one, and the lower neighbour is taken.
example : (build 6 [(0, 1), (1, 2), (2, 3), (3, 4), (4, 5), (5, 0)] (by decide)).shortestPath 0 3 =
    some [0, 1, 2, 3] := by
  decide

end CircuitRouting.CouplingMap
