import CircuitRouting.Proofs.CouplingMap.Walk

/-!
# Components of a device

Flooding from a qubit reaches what is joined with it and nothing else. The sizes of the components, the
distances of the device and the check that some qubits are connected all speak of the same components.
-/

namespace CircuitRouting.CouplingMap

open Relation

variable {m : CouplingMap} {start a b p q : Nat} {done queue seen old : List Nat}

theorem component_eq_of_mem (h : b ∈ m.component a) : m.component a = m.component b := by
  induction h
  case refl => rfl
  case tail step hi => exact hi.trans (component_eq step)

-- What holds of the qubits that are visited and those in the queue, beside old ones.
structure Flooding (m : CouplingMap) (start : Nat) (old done queue : List Nat) : Prop where
  nodup : (done ++ queue).Nodup
  inside : ∀ q ∈ done ++ queue, q < m.numQubits
  new : ∀ q ∈ done ++ queue, q ∉ old
  joined : ∀ q ∈ done ++ queue, q ∈ m.component start
  closed : ∀ q ∈ done, ∀ p, m.coupled q p → p ∈ done ++ queue ∨ p ∈ old
  root : start ∈ done ++ queue

namespace Flooding

theorem initial (inside : a < m.numQubits) (new : a ∉ old) : m.Flooding a old [] [a] :=
  ⟨by simp, by simpa using inside, by simpa using new, by simp [component, ReflTransGen.refl], by simp,
    by simp⟩

-- If all qubits are visited, none is left in the queue.
theorem queue_eq_nil (h : m.Flooding start old done queue) (len : m.numQubits ≤ done.length) :
    queue = [] := by
  have sub : done ++ queue ⊆ List.range m.numQubits := fun q hq => List.mem_range.mpr (h.inside q hq)
  have le := (List.Nodup.subperm h.nodup sub).length_le
  simp only [List.length_append, List.length_range] at le
  exact List.eq_nil_of_length_eq_zero (by omega)

-- The first of the queue is visited, and its neighbours that have not been seen join the queue.
theorem step (h : m.Flooding start old done (q :: queue))
    (same : ∀ p, p ∈ seen ↔ p ∈ done ++ q :: queue ∨ p ∈ old) :
    m.Flooding start old (done ++ [q])
      (queue ++ (m.neighbors q).filter fun p => !seen.contains p) := by
  have mem_fresh : ∀ p, p ∈ (m.neighbors q).filter (fun p => !seen.contains p) ↔
      m.coupled q p ∧ p ∉ done ++ q :: queue ∧ p ∉ old := by
    intro p
    simp only [List.mem_filter, mem_neighbors, Bool.not_eq_true', List.contains_eq_mem,
      decide_eq_false_iff_not, same, not_or]
  have whole : (done ++ [q]) ++ (queue ++ (m.neighbors q).filter fun p => !seen.contains p) =
      (done ++ q :: queue) ++ (m.neighbors q).filter fun p => !seen.contains p := by simp
  have member : q ∈ done ++ q :: queue := by simp
  refine ⟨?_, ?_, ?_, ?_, ?_, ?_⟩
  all_goals rw [whole]
  case refine_1 =>
    refine List.nodup_append.mpr ⟨h.nodup, (m.nodup_neighbors q).filter _, ?_⟩
    rintro a ha b hb rfl
    exact ((mem_fresh a).mp hb).2.1 ha
  case refine_2 =>
    refine List.forall_mem_append.mpr ⟨h.inside, fun p hp => ?_⟩
    exact (inside_of_coupled ((mem_fresh p).mp hp).1).2.1
  case refine_3 =>
    exact List.forall_mem_append.mpr ⟨h.new, fun p hp => ((mem_fresh p).mp hp).2.2⟩
  case refine_4 =>
    refine List.forall_mem_append.mpr ⟨h.joined, fun p hp => ?_⟩
    exact (h.joined q member).tail ((mem_fresh p).mp hp).1
  case refine_5 =>
    intro x hx p coupled
    by_cases known : p ∈ done ++ q :: queue
    case pos => exact .inl (List.mem_append_left _ known)
    case neg =>
      cases List.mem_append.mp hx
      case inl hx => exact .inr ((h.closed x hx p coupled).resolve_left known)
      case inr hx =>
        cases List.mem_singleton.mp hx
        by_cases past : p ∈ old
        case pos => exact .inr past
        case neg => exact .inl (List.mem_append_right _ ((mem_fresh p).mpr ⟨coupled, known, past⟩))
  case refine_6 => exact List.mem_append_left _ h.root

theorem flood (fuel : Nat) (seen : List Nat) (h : m.Flooding start old done queue)
    (len : m.numQubits ≤ done.length + fuel) (same : ∀ p, p ∈ seen ↔ p ∈ done ++ queue ∨ p ∈ old) :
    m.Flooding start old (done ++ m.flood fuel queue seen) [] := by
  induction fuel generalizing done queue seen
  case zero =>
    have none := h.queue_eq_nil (by omega)
    subst none
    simpa [CouplingMap.flood] using h
  case succ fuel hi =>
    cases queue
    case nil => simpa [CouplingMap.flood] using h
    case cons q queue =>
      have rest := hi (((m.neighbors q).filter fun p => !seen.contains p) ++ seen) (h.step same)
        (by simp; omega) fun p => by
          simp only [List.mem_append, List.mem_cons, List.not_mem_nil, or_false, same p]
          tauto
      simpa [CouplingMap.flood] using rest

-- What does not lead out of the old qubits does not lead into them either.
theorem mem_iff (h : m.Flooding start old done []) (apart : ∀ q ∈ old, ∀ p, m.coupled q p → p ∈ old) :
    p ∈ done ↔ p ∈ m.component start := by
  constructor
  case mp => exact fun hp => h.joined p (by simpa using hp)
  case mpr =>
    intro joined
    induction joined
    case refl => simpa using h.root
    case tail x y _ step hi =>
      refine (by simpa using h.closed x hi y step : y ∈ done ∨ y ∈ old).resolve_right fun past => ?_
      exact h.new x (by simpa using hi) (apart y past x (coupled_comm ▸ step))

end Flooding

-- A flood from a qubit that has not been seen finds its component.
theorem flood_spec (inside : a < m.numQubits) (new : a ∉ old)
    (apart : ∀ q ∈ old, ∀ p, m.coupled q p → p ∈ old) :
    (m.flood m.numQubits [a] (a :: old)).Nodup ∧
      ∀ p, p ∈ m.flood m.numQubits [a] (a :: old) ↔ p ∈ m.component a := by
  have flooded := (Flooding.initial inside new).flood m.numQubits (a :: old) (by simp) (by simp)
  rw [List.nil_append] at flooded
  exact ⟨by simpa using flooded.nodup, fun p => flooded.mem_iff apart⟩

-- Each flood finds a whole component, and together they find every start.
theorem floodAll_spec (starts seen : List Nat) (inside : ∀ q ∈ starts, q < m.numQubits)
    (apart : ∀ q ∈ seen, ∀ p, m.coupled q p → p ∈ seen) :
    (∀ block ∈ m.floodAll starts seen, block.Nodup ∧
      ∀ q ∈ block, ∀ p, p ∈ block ↔ p ∈ m.component q) ∧
    ∀ q ∈ starts, q ∈ seen ∨ ∃ block ∈ m.floodAll starts seen, q ∈ block := by
  induction starts generalizing seen
  case nil => simp [floodAll]
  case cons start starts hi =>
    have ⟨here, later⟩ := List.forall_mem_cons.mp inside
    rw [floodAll]
    split
    case isTrue known =>
      have ⟨whole, found⟩ := hi seen later apart
      exact ⟨whole, List.forall_mem_cons.mpr ⟨.inl (List.contains_iff_mem.mp known), found⟩⟩
    case isFalse fresh =>
      have new : start ∉ seen := fun known => fresh (List.contains_iff_mem.mpr known)
      have ⟨nodup, mem⟩ := flood_spec here new apart
      generalize m.flood m.numQubits [start] (start :: seen) = members at mem nodup
      have ⟨whole, found⟩ := hi (members ++ seen) later fun q hq p coupled => by
        cases List.mem_append.mp hq
        case inl hq =>
          exact List.mem_append_left _ ((mem p).mpr (((mem q).mp hq).tail coupled))
        case inr hq => exact List.mem_append_right _ (apart q hq p coupled)
      refine ⟨List.forall_mem_cons.mpr ⟨⟨nodup, fun q hq p => ?_⟩, whole⟩,
        List.forall_mem_cons.mpr ⟨?_, fun q hq => ?_⟩⟩
      case refine_1 => rw [mem, component_eq_of_mem ((mem q).mp hq)]
      case refine_2 => exact .inr ⟨members, by simp, (mem start).mpr .refl⟩
      case refine_3 =>
        cases found q hq
        case inl known =>
          exact (List.mem_append.mp known).symm.imp_right fun hq => ⟨members, by simp, hq⟩
        case inr later =>
          have ⟨block, hb, hq⟩ := later
          exact .inr ⟨block, by simp [hb], hq⟩

theorem getElem?_componentSizes (hq : q < m.numQubits) :
    m.componentSizes[q]? = some (m.component q).ncard := by
  have ⟨whole, found⟩ := m.floodAll_spec (List.range m.numQubits) [] (by simp) (by simp)
  have ⟨block, hb, mem⟩ := (found q (List.mem_range.mpr hq)).resolve_left (by simp)
  have ⟨block', first⟩ := Option.isSome_iff_exists.mp
    (List.find?_isSome (p := fun b : List Nat => b.contains q).mpr ⟨block, hb, by simpa using mem⟩)
  have mem' : q ∈ block' := by simpa using List.find?_some first
  have ⟨nodup, members⟩ := whole block' (List.mem_of_find?_eq_some first)
  have same : m.component q = (block'.toFinset : Set Nat) := by
    ext p
    simp [members q mem' p]
  rw [same, Set.ncard_coe_finset, List.toFinset_card_of_nodup nodup]
  rw [componentSizes, List.getElem?_map, List.getElem?_range hq]
  simp only [Option.map_some, components, first]

theorem componentSizes_eq (hq : q < m.numQubits) :
    m.componentSizes.getD q 0 = (m.component q).ncard := by
  rw [List.getD_eq_getElem?_getD, getElem?_componentSizes hq, Option.getD_some]

theorem Walk.mem_component {k : Nat} (h : m.Walk k a b) : b ∈ m.component a := by
  induction h
  case nil => exact .refl
  case concat last hi => exact hi.tail last

-- Distances are known within each component.
theorem isSome_distance_iff : (m.distance a b).isSome ↔ a < m.numQubits ∧ b ∈ m.component a := by
  rw [Option.isSome_iff_exists]
  constructor
  case mp =>
    intro ⟨d, found⟩
    have ⟨ha, walk, _⟩ := distance_eq_some_iff_walk.mp found
    exact ⟨ha, walk.mem_component⟩
  case mpr => exact fun ⟨ha, joined⟩ => exists_distance ha joined

-- Being joined within a set is being joined when nothing else is left of the device.
theorem joined_iff_mem_component {s : List Nat} : m.Joined s a b ↔ b ∈ (m.induced s).component a := by
  have steps : (fun a b => a ∈ s ∧ b ∈ s ∧ m.coupled a b) = fun a b => (m.induced s).coupled a b = true := by
    funext a b
    exact propext coupled_induced.symm
  rw [Joined, steps]
  rfl

-- The qubits of a set are joined by merging, by distances on what is induced, and by flooding alike.
theorem connectivity_agrees (m : CouplingMap) :
    (∀ s : List Nat, m.isConnectedSubset s ↔
      (∀ q ∈ s, q < m.numQubits) ∧ ∀ a ∈ s, ∀ b ∈ s, ((m.induced s).distance a b).isSome) ∧
    ∀ p < m.numQubits, ∃ size : Nat, m.componentSizes[p]? = some size ∧
      { q | (m.distance p q).isSome }.encard = size := by
  refine ⟨fun s => ?_, fun p hp => ⟨_, getElem?_componentSizes hp, ?_⟩⟩
  case refine_1 =>
    rw [isConnectedSubset_iff]
    refine and_congr_right fun inside => forall₂_congr fun a ha => forall₂_congr fun b _ => ?_
    rw [joined_iff_mem_component, isSome_distance_iff]
    exact (and_iff_right (inside a ha)).symm
  case refine_2 =>
    have same : { q | (m.distance p q).isSome } = m.component p := by
      ext q
      simp [isSome_distance_iff, hp]
    rw [same, (finite_component hp).cast_ncard_eq]

-- A chain of three qubits and one of two. The ends of the first are joined, but not without its middle.
def islands : CouplingMap :=
  build 5 [(0, 1), (2, 1), (4, 3)] (by decide)

theorem connectivity_agrees_islands :
    (∀ a ∈ [1, 0, 2, 0], ∀ b ∈ [1, 0, 2, 0],
      ((islands.induced [1, 0, 2, 0]).distance a b).isSome) ∧
    ¬islands.isConnectedSubset [0, 2] ∧
    3 < islands.numQubits ∧ { q | (islands.distance 3 q).isSome }.encard = 2 := by
  have ⟨subset, sizes⟩ := connectivity_agrees islands
  refine ⟨((subset [1, 0, 2, 0]).mp (by decide)).2, fun connected => ?_, by decide, ?_⟩
  case refine_1 =>
    have apart : ((islands.induced [0, 2]).distance 0 2).isSome = false := by decide
    have joined := ((subset [0, 2]).mp connected).2 0 (by decide) 2 (by decide)
    simp [apart] at joined
  case refine_2 =>
    have ⟨size, listed, count⟩ := sizes 3 (by decide)
    have two : islands.componentSizes[3]? = some 2 := by decide
    cases two.symm.trans listed
    exact count

end CircuitRouting.CouplingMap
