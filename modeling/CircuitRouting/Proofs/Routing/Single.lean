import CircuitRouting.Proofs.Routing.Success

/-!
# Routing a single gate

Nodes with one gate on two qubits are routed with as few swaps as there can be, whatever the random
choices, unless the cap allows fewer. Since a layer that fails is routed one node after the other,
routing as a whole fails only if the cap is too small for the occupied qubits.
-/

namespace CircuitRouting

namespace Routing

open SwapSearch

variable {σ : Type} {m : CouplingMap} {d : Dag} {occ : List Nat} {lay : Layout} {p p' : Progress σ}
  {s : Setting σ} {nodes : List Nat} {swaps : List (Nat × Nat)} {a b x y n layer trials dist : Nat}
  {e : CompileError}

section Errors

-- The errors of a group of nodes: a qubit without a place, or an operation that does not fit.
def Misplaced : CompileError → Prop
  | .layoutIncomplete _ | .circuit _ => True
  | _ => False

theorem misplaced_of_physical {q : Nat} (h : physical lay q = .error e) : Misplaced e := by
  rw [physical] at h
  split at h
  case h_1 => contradiction
  case h_2 =>
    cases h
    trivial

theorem misplaced_of_mapError {α : Type} {r : Except CircuitError α}
    (h : r.mapError .circuit = .error e) : Misplaced e := by
  have ⟨_, _, eq⟩ := mapError_eq_error_iff.mp h
  exact eq ▸ trivial

theorem misplaced_of_positions (h : positions d lay nodes = .error e) : Misplaced e := by
  have ⟨x, _, h⟩ := of_mapM_eq_error h
  rcases bind_eq_error_iff.mp h with h | ⟨_, _, h⟩
  · exact misplaced_of_physical h
  · rcases bind_eq_error_iff.mp h with h | ⟨_, _, h⟩
    · exact misplaced_of_physical h
    · contradiction

theorem misplaced_of_insertSwap {f : Nat × Nat} (h : insertSwap layer p f = .error e) :
    Misplaced e := by
  rcases bind_eq_error_iff.mp h with h | ⟨_, _, h⟩
  · exact misplaced_of_mapError h
  · contradiction

theorem misplaced_of_emitNode (h : emitNode d p n = .error e) : Misplaced e := by
  rw [emitNode] at h
  split at h
  case h_1 => contradiction
  case h_2 i _ =>
    rcases bind_eq_error_iff.mp h with h | ⟨_, _, h⟩
    · obtain ⟨_, _, h⟩ := of_mapM_eq_error (map_eq_error_iff.mp h)
      exact misplaced_of_physical h
    · rcases bind_eq_error_iff.mp h with h | ⟨_, _, h⟩
      · exact misplaced_of_mapError h
      · contradiction

theorem misplaced_of_commit (h : commit s layer nodes p swaps = .error e) : Misplaced e := by
  rcases bind_eq_error_iff.mp h with h | ⟨_, _, h⟩
  · have ⟨_, _, _, h⟩ := of_foldlM_eq_error (fun _ => True) (fun _ _ _ _ _ => trivial) trivial h
    exact misplaced_of_insertSwap h
  · have ⟨_, _, _, h⟩ := of_foldlM_eq_error (fun _ => True) (fun _ _ _ _ _ => trivial) trivial h
    exact misplaced_of_emitNode h

theorem misplaced_of_route (h : route s layer nodes p = .error e) : Misplaced e := by
  rw [route_eq] at h
  rcases bind_eq_error_iff.mp h with h | ⟨ps, _, h⟩
  · exact misplaced_of_positions h
  · split at h
    case h_1 => contradiction
    case h_2 =>
      rcases bind_eq_error_iff.mp h with h | ⟨_, _, h⟩
      · exact misplaced_of_commit h
      · contradiction

theorem of_routeAlone_eq_error (h : routeAlone s layer p n = .error (.routingFailed l trials)) :
    ∃ p', route s layer [n] p = .ok (false, p') := by
  rcases bind_eq_error_iff.mp h with h | ⟨⟨done, p'⟩, routed, h⟩
  · exact (misplaced_of_route h).elim
  · cases done
    case true => contradiction
    case false => exact ⟨p', routed⟩

-- Routing fails at a node that is routed alone, and up to there it keeps what it keeps.
theorem Stable.of_routeLayers_eq_error {keeps : Progress σ → Prop} (stable : Stable m occ s keeps)
    (on : s.On m occ) {ls : List (List Nat × Nat)} {l : Nat} (h : keeps p)
    (eq : ls.foldlM (Routing.routeLayer s) p = .error (.routingFailed l trials)) :
    ∃ layer n q q', keeps q ∧ Routing.route s layer [n] q = .ok (false, q') := by
  have ⟨p₁, layer, h₁, eq⟩ := of_foldlM_eq_error keeps (fun _ _ _ h step => stable.routeLayer on h step)
    h eq
  rcases bind_eq_error_iff.mp eq with eq | ⟨⟨done, p₂⟩, routed, eq⟩
  · exact (misplaced_of_route eq).elim
  · have h₂ := stable.route on h₁ routed
    cases done
    case true => contradiction
    case false =>
      have ⟨q, n, hq, eq⟩ := of_foldlM_eq_error keeps
        (fun _ _ _ h step => stable.routeAlone on h step) h₂ eq
      have ⟨q', failed⟩ := of_routeAlone_eq_error eq
      exact ⟨_, n, q, q', hq, failed⟩

end Errors

-- A node that cannot be routed alone needs more swaps than the cap allows.
theorem Prepared.cap_lt (h : Prepared m occ s) (occupied : p.layout.occupied = occ)
    (failed : Routing.route s layer [n] p = .ok (false, p')) : s.cap + 2 < occ.length := by
  have ⟨ps, random, placed, result⟩ := of_route_eq_ok failed
  have ⟨_, planned, _⟩ := result.resolve_left (by simp)
  by_contra enough
  have planned' := h.isSome_plan p.random (occupied ▸ placed.mem_occupied) placed.length_le
    (Nat.le_of_not_lt enough)
  simp [planned] at planned'

-- Swaps that bring two operands next to each other clear their cost.
theorem clears_of_coupled (placed : Placed lay [(a, b)] [(x, y)])
    (along : ∀ e ∈ swaps, (m.induced occ).coupled e.1 e.2) {x' y' : Nat}
    (ha : (lay.swapAll swaps).physical? a = some x') (hb : (lay.swapAll swaps).physical? b = some y')
    (coupled : (m.induced occ).coupled x' y') : Clears (m.induced occ) occ [(x, y)] swaps := by
  have moved : Placed (lay.swapAll swaps) [(a, b)] [(x', y')] := .cons ⟨ha, hb⟩ .nil
  refine ⟨along, ?_⟩
  rw [(placed.swapAll swaps).unique moved]
  exact cost?_single.mpr ⟨1, CouplingMap.distance_of_coupled coupled, rfl⟩

-- What routing comes to for nodes whose one gate on two qubits has its operands so far apart.
structure Shortest (m : CouplingMap) (d : Dag) (occ : List Nat) (cap layer : Nat) (nodes : List Nat)
    (p : Progress σ) (a b dist : Nat) (done : Bool) (p' : Progress σ) : Prop where
  done_iff : done = true ↔ dist - 1 ≤ cap
  left : done = false → ∃ random, p' = { p with random }
  swapped : done = true → ∃ swaps out, swaps.length = dist - 1 ∧
    (∀ e ∈ swaps, (m.induced occ).coupled e.1 e.2) ∧ Advance d layer p [⟨swaps, nodes⟩] out p'
  fewest : ∀ swaps, (∀ e ∈ swaps, (m.induced occ).coupled e.1 e.2) → ∀ x y,
    (p.layout.swapAll swaps).physical? a = some x → (p.layout.swapAll swaps).physical? b = some y →
    (m.induced occ).coupled x y → dist - 1 ≤ swaps.length

theorem Prepared.exists_shortest (h : Prepared m occ s) (underway : Underway m s.source occ p)
    (layer : Nat) (ready : ∀ n ∈ nodes, Ready s.source p.layout n)
    (single : s.source.pairsOf nodes = [(a, b)]) (ha : p.layout.physical? a = some x)
    (hb : p.layout.physical? b = some y) (far : (m.induced occ).distance x y = some dist) :
    ∃ done p', Routing.route s layer nodes p = .ok (done, p') ∧
      Shortest m s.source occ s.cap layer nodes p a b dist done p' := by
  have placed : Placed p.layout (s.source.pairsOf nodes) [(x, y)] := single ▸ .cons ⟨ha, hb⟩ .nil
  have ⟨hx, hy⟩ : x ∈ occ ∧ y ∈ occ := underway.occupied ▸ placed.mem_occupied (x, y) (by simp)
  have ⟨p', eq, _⟩ := h.route underway layer ready placed
  have length := h.length_plan p.random (x := (x, y)) hx hy far
  have ⟨ps, random, placed', result⟩ := of_route_eq_ok eq
  cases placed.unique placed'
  refine ⟨_, p', eq, ?_, fun undone => ?_, fun done => ?_, fun swaps along x' y' ha' hb' coupled => ?_⟩
  case refine_1 =>
    have found := congrArg Option.isSome length
    rw [Option.isSome_map] at found
    rw [found]
    split <;> simp [*]
  case refine_2 => exact ⟨random, (result.resolve_left fun done => by simp [undone] at done).2.2⟩
  case refine_3 =>
    have ⟨_, swaps, planned, committed⟩ := result.resolve_right fun undone => by simp [done] at undone
    have ops : ∀ n ∈ nodes, (s.source.instruction? n).isSome := fun n hn =>
      have ⟨_, found, _⟩ := ready n hn
      Option.isSome_of_eq_some found
    have ⟨out, advance⟩ := of_commit ops committed
    have count : swaps.length = dist - 1 := by
      rw [planned] at length
      split at length
      case isTrue => exact Option.some.inj length
      case isFalse => contradiction
    exact ⟨swaps, out, count, (clears_of_plan h.toOn planned).along, advance.emits, advance.routed,
      advance.swaps⟩
  case refine_4 =>
    have spanned := CouplingMap.spanned_induced h.connected
    by_cases same : x = y
    case pos =>
      rw [same, CouplingMap.distance_self (spanned.inside y hy)] at far
      cases far
      exact Nat.zero_le _
    case neg =>
      have clears := clears_of_coupled (single ▸ placed) along ha' hb' coupled
      exact clears.cost_le_length spanned (by simpa [Within] using ⟨hx, hy, same⟩)
        (cost?_single.mpr ⟨dist, far, rfl⟩)

theorem cap_lt_of_routeAll {chooser : Chooser σ} {random : σ} {effort : RoutingEffort}
    (failed : routeAll chooser random m effort lay d = .error (.routingFailed layer trials)) :
    effort.cap lay.occupied.length + 2 < lay.occupied.length := by
  rw [routeAll] at failed
  split at failed
  case isTrue => cases failed
  case isFalse connected =>
    have prepared := prepared_setting chooser effort d (by simpa using connected)
    obtain ⟨_, _, q, _, confined, alone⟩ := Confined.stable.of_routeLayers_eq_error prepared.toOn
      (confined_start m lay d random) failed
    exact prepared.cap_lt confined.occupied alone

end Routing

namespace Pass

open Routing

variable {σ : Type} {chooser : Chooser σ} {random : σ} {effort : RoutingEffort} {w : Workspace}
  {e : CompileError}

-- A run of the routing pass that has a device and a layout fails with the error of routing.
theorem of_run_routing_error (failed : ((routing chooser random effort).run w).1 = .error e)
    (device : e ≠ .missingCouplingMap) (layout : e ≠ .missingLayout) :
    ∃ m lay, w.properties.layout = some lay ∧ routeAll chooser random m effort lay w.dag = .error e := by
  simp only [routing, allOrNothing] at failed
  split at failed
  case h_1 => contradiction
  case h_2 e' eq =>
    cases failed
    split at eq
    case h_1 =>
      cases eq
      contradiction
    case h_2 =>
      cases eq
      contradiction
    case h_3 m lay _ layout =>
      refine ⟨m, lay, layout, (bind_eq_error_iff.mp eq).resolve_right ?_⟩
      rintro ⟨_, _, other⟩
      contradiction

theorem one_gate_takes_fewest_swaps {σ : Type} (chooser : Chooser σ) (effort : RoutingEffort) :
    (∀ (m : CouplingMap) (d : Dag) (lay : Layout) (p : Progress σ) (layer : Nat) (nodes : List Nat)
        (a b x y dist : Nat),
      m.isConnectedSubset lay.occupied → Underway m d lay.occupied p →
      (∀ n ∈ nodes, Ready d p.layout n) → d.pairsOf nodes = [(a, b)] →
      p.layout.physical? a = some x → p.layout.physical? b = some y →
      (m.induced lay.occupied).distance x y = some dist →
      ∃ done p', route (setting chooser m effort lay d) layer nodes p = .ok (done, p') ∧
        Shortest m d lay.occupied (effort.cap lay.occupied.length) layer nodes p a b dist done p') ∧
    ∀ (w : Workspace) (random : σ) (layer trials : Nat),
      ((routing chooser random effort).run w).1 = .error (.routingFailed layer trials) →
      ∃ lay, w.properties.layout = some lay ∧
        effort.cap lay.occupied.length + 2 < lay.occupied.length := by
  refine ⟨fun m d lay p layer nodes a b x y dist connected underway ready single ha hb far => ?_,
    fun w random layer trials failed => ?_⟩
  case refine_1 =>
    exact (prepared_setting chooser effort d connected).exists_shortest underway layer ready single ha
      hb far
  case refine_2 =>
    have ⟨m, lay, layout, failed⟩ := of_run_routing_error failed (by simp) (by simp)
    exact ⟨lay, layout, cap_lt_of_routeAll failed⟩

-- The gate on the ends of a chain takes a swap, and fails if none is allowed.
theorem one_gate_takes_fewest_swaps_chain :
    (∃ done p', route (setting Chooser.first (.linear 3) {} (.trivial 3) chainGate.dag) 0 [6]
        { random := (), layout := .trivial 3, routed := board (.linear 3) chainGate.dag } =
          .ok (done, p') ∧
      Shortest (.linear 3) chainGate.dag [0, 1, 2] 9 0 [6]
        { random := (), layout := .trivial 3, routed := board (.linear 3) chainGate.dag } 0 2 2 done
        p') ∧
    ((routing Chooser.first () { swapCap := some 0 }).run chainGate).1 =
        .error (.routingFailed 0 20) ∧
      ∃ lay, chainGate.properties.layout = some lay ∧ 0 + 2 < lay.occupied.length := by
  have ready : ∀ n ∈ [6], Ready chainGate.dag (.trivial 3) n := by
    have fits : chainGate.dag.Fits (.cx 0 2) := Dag.validate_eq_ok_iff.mp (by decide +kernel)
    simp only [List.mem_singleton, forall_eq]
    exact ⟨.cx 0 2, rfl, ⟨fits, .nil⟩, by decide +kernel⟩
  have failed : ((routing Chooser.first () { swapCap := some 0 }).run chainGate).1 =
      .error (.routingFailed 0 20) := by decide +kernel
  exact ⟨(one_gate_takes_fewest_swaps Chooser.first {}).1 (.linear 3) chainGate.dag (.trivial 3) _ 0 [6]
      0 2 0 2 2 (by decide +kernel) (underway_start ..) ready (by decide +kernel) (by decide +kernel)
      (by decide +kernel) (by decide +kernel),
    failed, (one_gate_takes_fewest_swaps Chooser.first { swapCap := some 0 }).2 chainGate () 0 20 failed⟩

end Pass

end CircuitRouting
