import CircuitRouting.Proofs.CouplingMap.Distance

/-!
# Shortest walks

The distance of two qubits is the length of a shortest walk between them. It is the same in both
directions, and moving one of the qubits along an edge changes it by at most one.
-/

namespace CircuitRouting.CouplingMap

variable {m : CouplingMap} {a b c d d' k : Nat}

-- A walk of so many steps along edges in either direction.
inductive Walk (m : CouplingMap) : Nat → Nat → Nat → Prop
  | nil (a : Nat) : Walk m 0 a a
  | concat {k a b c : Nat} : Walk m k a b → m.coupled b c → Walk m (k + 1) a c

namespace Walk

theorem cons (step : m.coupled a b) (h : m.Walk k b c) : m.Walk (k + 1) a c := by
  induction h
  case nil => exact .concat (.nil a) step
  case concat last hi => exact .concat (hi step) last

theorem symm (h : m.Walk k a b) : m.Walk k b a := by
  induction h
  case nil => exact .nil _
  case concat last hi => exact .cons (coupled_comm ▸ last) hi

theorem inside (h : m.Walk k a b) (ha : a < m.numQubits) : b < m.numQubits := by
  cases h
  case nil => exact ha
  case concat last => exact (inside_of_coupled last).2.1

end Walk

-- The next qubit is at most one step further away.
theorem exists_distance_of_coupled (h : m.distance a b = some d) (step : m.coupled b c) :
    ∃ d' ≤ d + 1, m.distance a c = some d' := by
  have ⟨ha, v, mem, eq, dist⟩ := distance_eq_some_iff.mp h
  have ⟨u, mem', eq', le⟩ := (searched ha).closed v mem c (eq ▸ mem_neighbors.mpr step)
  exact ⟨u.distance, dist ▸ le, distance_eq_some_iff.mpr ⟨ha, u, mem', eq', rfl⟩⟩

theorem Walk.exists_distance_le (h : m.Walk k a b) (ha : a < m.numQubits) :
    ∃ d ≤ k, m.distance a b = some d := by
  induction h
  case nil => exact ⟨0, Nat.le_refl 0, distance_self ha⟩
  case concat last hi =>
    have ⟨d, le, near⟩ := hi ha
    have ⟨d', le', eq⟩ := exists_distance_of_coupled near last
    exact ⟨d', by omega, eq⟩

theorem walk_of_distance (h : m.distance a b = some d) : m.Walk d a b := by
  induction d generalizing b
  case zero => exact eq_of_distance_zero h ▸ .nil a
  case succ d hi =>
    have ⟨_, _, near, last⟩ := exists_parent h
    exact .concat (hi near) last

theorem distance_eq_some_iff_walk : m.distance a b = some d ↔
    a < m.numQubits ∧ m.Walk d a b ∧ ∀ k, m.Walk k a b → d ≤ k := by
  constructor
  case mp =>
    intro h
    have ha := (distance_eq_some_iff.mp h).1
    refine ⟨ha, walk_of_distance h, fun k walk => ?_⟩
    have ⟨d', le, eq⟩ := walk.exists_distance_le ha
    cases h.symm.trans eq
    exact le
  case mpr =>
    rintro ⟨ha, walk, shortest⟩
    have ⟨d', le, eq⟩ := walk.exists_distance_le ha
    have ge := shortest d' (walk_of_distance eq)
    exact Nat.le_antisymm ge le ▸ eq

theorem distance_symm (h : m.distance a b = some d) : m.distance b a = some d := by
  have ⟨ha, walk, shortest⟩ := distance_eq_some_iff_walk.mp h
  exact distance_eq_some_iff_walk.mpr
    ⟨walk.inside ha, walk.symm, fun k walk' => shortest k walk'.symm⟩

-- A step of the second qubit changes the distance by at most one.
theorem distance_le_of_coupled (h : m.distance a b = some d) (step : m.coupled b c)
    (h' : m.distance a c = some d') : d ≤ d' + 1 := by
  have ⟨e, le, eq⟩ := exists_distance_of_coupled h' (coupled_comm ▸ step)
  cases h.symm.trans eq
  exact le

theorem distance_of_coupled (h : m.coupled a b) : m.distance a b = some 1 := by
  have ⟨ha, _, ne⟩ := inside_of_coupled h
  refine distance_eq_some_iff_walk.mpr ⟨ha, .concat (.nil a) h, fun k walk => ?_⟩
  cases walk
  case nil => exact absurd rfl ne
  case concat => exact Nat.le_add_left 1 _

end CircuitRouting.CouplingMap
