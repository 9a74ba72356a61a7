import CircuitRouting.Proofs.Pass.Direction
import CircuitRouting.Proofs.Pass.Expansion
import CircuitRouting.Proofs.Routing.Confined

/-!
# Routing does not fail

From a layout that places all qubits on joined ones, routing comes to an end. A layer that cannot be
routed at once is routed one node after the other, and for one node the search always finds swaps. All
controlled NOTs that are emitted act on coupled qubits.
-/

namespace CircuitRouting.Routing

open SwapSearch

variable {σ : Type} {m : CouplingMap} {d : Dag} {occ : List Nat} {lay : Layout} {p p' : Progress σ}
  {i j : Instruction} {is : List Instruction} {nodes : List Nat} {pairs : List (Nat × Nat)}
  {ps : Positions} {swaps : List (Nat × Nat)} {e : Nat × Nat} {a b n layer : Nat}

theorem exists_placed (lay : Layout) (pairs : List (Nat × Nat))
    (h : ∀ x ∈ pairs, (lay.physical? x.1).isSome ∧ (lay.physical? x.2).isSome) :
    ∃ ps, Placed lay pairs ps := by
  induction pairs
  case nil => exact ⟨[], .nil⟩
  case cons x pairs hi =>
    have ⟨⟨h₁, h₂⟩, rest⟩ := List.forall_mem_cons.mp h
    have ⟨p, hp⟩ := Option.isSome_iff_exists.mp h₁
    have ⟨q, hq⟩ := Option.isSome_iff_exists.mp h₂
    have ⟨ps, placed⟩ := hi rest
    exact ⟨(p, q) :: ps, .cons ⟨hp, hq⟩ placed⟩

-- The graph on the qubits of a device that routing starts from.
def board (m : CouplingMap) (d : Dag) : Dag :=
  .ofWires (List.range m.numQubits) d.clbits .physical

theorem hasWire_board_qubit : (board m d).hasWire (.qubit a) ↔ a < m.numQubits := by
  simp [board, Dag.hasWire_ofWires]

theorem hasWire_board_clbit : (board m d).hasWire (.clbit b) ↔ d.hasWire (.clbit b) := by
  rw [board, Dag.hasWire_ofWires, ← Dag.mem_clbits]
  simp

theorem fits_cx (ha : a < m.numQubits) (hb : b < m.numQubits) (ne : a ≠ b) :
    (board m d).FitsOnce (.cx a b) := by
  refine ⟨⟨?_, by simp [Instruction.cx, Instruction.gate, Instruction.isMeasure], ?_, ?_, ?_⟩, ?_⟩
  case refine_1 =>
    rintro _ ⟨⟩
    rfl
  case refine_2 => simp [Instruction.cx, Instruction.gate, hasWire_board_qubit, ha, hb]
  all_goals simp [Instruction.cx, Instruction.gate, ne]

-- What fits the circuit fits the device once it is placed.
theorem fits_of_relabelled (fits : d.FitsOnce i) (rel : i.Relabelled lay j)
    (inside : ∀ q ∈ lay.occupied, q < m.numQubits) : (board m d).FitsOnce j := by
  have proper := rel.proper fits.proper
  refine ⟨⟨proper.arity, fun measures => ?_, fun q hq => ?_, fun b hb => ?_, proper.nodup⟩, ?_⟩
  case refine_1 =>
    rw [rel.clbits]
    exact fits.measure (by simpa [Instruction.isMeasure, rel.action] using measures)
  case refine_2 =>
    obtain ⟨l, _, placed⟩ := exists_left_of_forall₂ rel.qubits hq
    exact hasWire_board_qubit.mpr (inside q (Layout.mem_occupied.mpr ⟨l, placed⟩))
  case refine_3 => exact hasWire_board_clbit.mpr (fits.clbits b (rel.clbits ▸ hb))
  case refine_4 => exact rel.clbits ▸ fits.once

-- An operation that is valid and has its qubits placed.
def Ready (d : Dag) (lay : Layout) (n : Nat) : Prop :=
  ∃ i, d.instruction? n = some i ∧ d.FitsOnce i ∧ ∀ q ∈ i.qubits, (lay.physical? q).isSome

-- What holds while a circuit is routed on some qubits.
structure Underway (m : CouplingMap) (d : Dag) (occ : List Nat) (p : Progress σ) : Prop where
  routed : ∃ out, (board m d).applyAll out = .ok p.routed ∧ ∀ j ∈ out, j.clbits.Nodup
  occupied : p.layout.occupied = occ

theorem underway_start (m : CouplingMap) (d : Dag) (lay : Layout) (random : σ) :
    Underway m d lay.occupied { random, layout := lay, routed := board m d } :=
  ⟨⟨[], rfl, by simp⟩, rfl⟩

namespace Underway

theorem withRandom (h : Underway m d occ p) (random : σ) : Underway m d occ { p with random } :=
  ⟨h.routed, h.occupied⟩

theorem written (h : Underway m d occ p) :
    (board m d).Alike p.routed ∧ ∃ seq, p.routed.Written seq := by
  have ⟨out, applied, once⟩ := h.routed
  have ⟨alike, new, _, written⟩ := (Dag.Written.ofWires ..).of_applyAll once applied
  exact ⟨alike, _, written⟩

theorem applyAll (h : Underway m d occ p) (is : List Instruction)
    (fits : ∀ j ∈ is, (board m d).FitsOnce j) :
    ∃ routed, p.routed.applyAll is = .ok routed ∧ Underway m d occ { p with routed } := by
  have ⟨alike, seq, written⟩ := h.written
  have ⟨out, applied, once⟩ := h.routed
  have ⟨routed, eq⟩ := written.serial.laid.traceable.applyAll fun j hj =>
    (fits j hj).toFits.congr fun w => (alike.hasWire w).mpr
  refine ⟨routed, eq, ⟨out ++ is, applyAll_append applied eq, fun j hj => ?_⟩, h.occupied⟩
  exact (List.mem_append.mp hj).elim (once j) fun hj => (fits j hj).once

theorem insertSwap (h : Underway m d occ p) (inside : ∀ q ∈ occ, q < m.numQubits)
    (along : (m.induced occ).coupled e.1 e.2) (layer : Nat) :
    ∃ p', insertSwap layer p e = .ok p' ∧ Underway m d occ p' := by
  obtain ⟨h₁, h₂, coupled⟩ := CouplingMap.coupled_induced.mp along
  have ne := (CouplingMap.inside_of_coupled coupled).2.2
  have fits : ∀ j ∈ Instruction.swapAsCx e.1 e.2, (board m d).FitsOnce j := by
    simp only [Instruction.swapAsCx, List.forall_mem_cons]
    exact ⟨fits_cx (inside _ h₁) (inside _ h₂) ne, fits_cx (inside _ h₂) (inside _ h₁) ne.symm,
      fits_cx (inside _ h₁) (inside _ h₂) ne, by simp⟩
  obtain ⟨routed, eq, underway⟩ := h.applyAll _ fits
  refine ⟨{ p with
    routed := routed
    layout := p.layout.swap e.1 e.2
    swaps := p.swaps ++ [⟨layer, e.1, e.2⟩] }, ?_, underway.routed, ?_⟩
  case refine_1 =>
    rw [Routing.insertSwap, eq]
    rfl
  case refine_2 =>
    rw [← h.occupied] at h₁ h₂
    exact (Layout.occupied_swap h₁ h₂).trans h.occupied

theorem insertSwaps (h : Underway m d occ p) (inside : ∀ q ∈ occ, q < m.numQubits)
    (along : ∀ e ∈ swaps, (m.induced occ).coupled e.1 e.2) (layer : Nat) :
    ∃ p', swaps.foldlM (Routing.insertSwap layer) p = .ok p' ∧ Underway m d occ p' :=
  exists_foldlM_eq_ok swaps (Underway m d occ)
    (fun _ h e he => h.insertSwap inside (along e he) layer) h

theorem emitNode (h : Underway m d occ p) (inside : ∀ q ∈ occ, q < m.numQubits)
    (ready : Ready d p.layout n) :
    ∃ p', emitNode d p n = .ok p' ∧ Underway m d occ p' ∧ p'.layout = p.layout := by
  obtain ⟨i, found, fits, placed⟩ := ready
  obtain ⟨j, rel⟩ := Instruction.exists_relabelled placed
  obtain ⟨routed, eq, underway⟩ := h.applyAll [j]
    (by simpa using fits_of_relabelled fits rel (h.occupied ▸ inside))
  obtain ⟨k, _, applied, same⟩ := Dag.of_applyAll_cons eq
  cases same
  refine ⟨{ p with routed }, ?_, underway, rfl⟩
  rw [Routing.emitNode, found]
  exact bind_eq_ok_iff.mpr ⟨j, mapQubitsM_eq_ok_iff.mpr rel,
    bind_eq_ok_iff.mpr ⟨_, mapError_eq_ok_iff.mpr applied, rfl⟩⟩

theorem emitNodes (h : Underway m d occ p) (inside : ∀ q ∈ occ, q < m.numQubits)
    (ready : ∀ n ∈ nodes, Ready d p.layout n) :
    ∃ p', nodes.foldlM (Routing.emitNode d) p = .ok p' ∧ Underway m d occ p' := by
  have step : ∀ q : Progress σ, Underway m d occ q ∧ q.layout = p.layout → ∀ n ∈ nodes,
      ∃ q', Routing.emitNode d q n = .ok q' ∧ Underway m d occ q' ∧ q'.layout = p.layout := by
    intro q ⟨h, same⟩ n hn
    have ⟨q', eq, underway, layout⟩ := h.emitNode inside (same ▸ ready n hn)
    exact ⟨q', eq, underway, layout.trans same⟩
  have ⟨p', eq, underway, _⟩ := exists_foldlM_eq_ok nodes _ step ⟨h, rfl⟩
  exact ⟨p', eq, underway⟩

variable {s : Setting σ}

theorem commit (h : Underway m s.source occ p) (inside : ∀ q ∈ occ, q < m.numQubits)
    (along : ∀ e ∈ swaps, (m.induced occ).coupled e.1 e.2)
    (ready : ∀ n ∈ nodes, Ready s.source p.layout n) (layer : Nat) :
    ∃ p', commit s layer nodes p swaps = .ok p' ∧ Underway m s.source occ p' := by
  have ⟨p₁, swapped, h₁⟩ := h.insertSwaps inside along layer
  have ready₁ : ∀ n ∈ nodes, Ready s.source p₁.layout n := by
    intro n hn
    rw [(of_insertSwaps swapped).1]
    simpa only [Ready, Layout.isSome_physical?_swapAll] using ready n hn
  have ⟨p', emitted, h'⟩ := h₁.emitNodes inside ready₁
  exact ⟨p', bind_eq_ok_iff.mpr ⟨p₁, swapped, emitted⟩, h'⟩

end Underway

variable {s : Setting σ}

-- Every pair of operands has its place.
theorem exists_positions (ready : ∀ n ∈ nodes, Ready d lay n) :
    ∃ ps, Placed lay (d.pairsOf nodes) ps := by
  refine exists_placed lay (d.pairsOf nodes) fun x hx => ?_
  have ⟨n, hn, i, found, pair⟩ := Dag.mem_pairsOf.mp hx
  have qubits := Instruction.qubits_of_pair? pair
  have ⟨_, found', _, placed⟩ := ready n hn
  cases found.symm.trans found'
  exact ⟨placed _ (by simp [qubits]), placed _ (by simp [qubits])⟩

-- What routing on some qubits relies on.
structure Prepared (m : CouplingMap) (occ : List Nat) (s : Setting σ) : Prop extends s.On m occ where
  tries : 0 < s.trials
  connected : m.isConnectedSubset occ

theorem prepared_setting (chooser : Chooser σ) (effort : RoutingEffort) (d : Dag)
    (connected : m.isConnectedSubset lay.occupied) :
    Prepared m lay.occupied (setting chooser m effort lay d) :=
  ⟨setting_on .., effort.tries, connected⟩

namespace Prepared

theorem inside (h : Prepared m occ s) : ∀ q ∈ occ, q < m.numQubits :=
  (CouplingMap.isConnectedSubset_iff.mp h.connected).1

-- For one pair the plan has a swap for each step that is too far, if the cap allows that many.
theorem length_plan (h : Prepared m occ s) (r : σ) {x : Nat × Nat} {dist : Nat} (h₁ : x.1 ∈ occ)
    (h₂ : x.2 ∈ occ) (far : (m.induced occ).distance x.1 x.2 = some dist) :
    (plan s [x] r).1.map List.length = if dist - 1 ≤ s.cap then some (dist - 1) else none := by
  have cost : cost? (.build (m.induced occ) occ) [x] = some (dist - 1) :=
    cost?_single.mpr ⟨dist, far, rfl⟩
  have spanned := CouplingMap.spanned_induced h.connected
  rw [plan, h.region, h.candidates, cost]
  split
  case isTrue free => simp [Option.some.inj free]
  case isFalse moves =>
    have apart : x.1 ≠ x.2 := by
      intro same
      rw [same, CouplingMap.distance_self (spanned.inside _ h₂)] at far
      cases far
      exact moves rfl
    exact length_search s.chooser r spanned (by simpa [Within] using ⟨h₁, h₂, apart⟩) cost h.tries

-- Nodes that are ready are routed with the planned swaps, or left if there are none.
theorem route (h : Prepared m occ s) (underway : Underway m s.source occ p) (layer : Nat)
    (ready : ∀ n ∈ nodes, Ready s.source p.layout n)
    (placed : Placed p.layout (s.source.pairsOf nodes) ps) :
    ∃ p', route s layer nodes p = .ok ((plan s ps p.random).1.isSome, p') ∧
      Underway m s.source occ p' ∧
      p'.layout = p.layout.swapAll ((plan s ps p.random).1.getD []) := by
  rw [route_eq]
  cases planned : plan s ps p.random
  case mk found random =>
    have underway₁ := underway.withRandom random
    cases found
    case none =>
      refine ⟨_, bind_eq_ok_iff.mpr ⟨ps, positions_eq_ok_iff.mpr placed, ?_⟩, underway₁, rfl⟩
      rw [planned]
      rfl
    case some swaps =>
      have clears := clears_of_plan h.toOn planned
      have ⟨p', committed, underway'⟩ := underway₁.commit h.inside clears.along ready layer
      have layout := layout_of_commit committed
      refine ⟨p', bind_eq_ok_iff.mpr ⟨ps, positions_eq_ok_iff.mpr placed, ?_⟩, underway', layout⟩
      rw [planned]
      exact bind_eq_ok_iff.mpr ⟨p', committed, rfl⟩

-- For at most one pair there is a plan if the cap allows a swap for each qubit between two others.
theorem isSome_plan (h : Prepared m occ s) (r : σ) (inside : ∀ x ∈ ps, x.1 ∈ occ ∧ x.2 ∈ occ)
    (short : ps.length ≤ 1) (cap : occ.length ≤ s.cap + 2) : (plan s ps r).1.isSome := by
  match ps, short with
  | [], _ => simp [plan, cost?]
  | [x], _ =>
    obtain ⟨h₁, h₂⟩ := inside x (by simp)
    obtain ⟨dist, far, lt⟩ := (CouplingMap.spanned_induced h.connected).exists_distance h₁ h₂
    have length := h.length_plan r h₁ h₂ far
    rw [if_pos (by omega)] at length
    simpa using congrArg Option.isSome length

end Prepared

-- What holds while all qubits of a circuit have their place.
structure Sound (m : CouplingMap) (d : Dag) (occ : List Nat) (p : Progress σ) : Prop
    extends Underway m d occ p where
  placed : ∀ q, d.hasWire (.qubit q) → (p.layout.physical? q).isSome

namespace Prepared

variable (h : Prepared m occ s) (fits : ∀ n i, s.source.instruction? n = some i → s.source.FitsOnce i)
include h fits

theorem route_sound (sound : Sound m s.source occ p) (layer : Nat)
    (ops : ∀ n ∈ nodes, (s.source.instruction? n).isSome) :
    ∃ done p', Routing.route s layer nodes p = .ok (done, p') ∧ Sound m s.source occ p' ∧
      (nodes.length ≤ 1 → occ.length ≤ s.cap → done = true) := by
  have ready : ∀ n ∈ nodes, Ready s.source p.layout n := by
    intro n hn
    have ⟨i, found⟩ := Option.isSome_iff_exists.mp (ops n hn)
    have fits := fits n i found
    exact ⟨i, found, fits, fun q hq => sound.placed q (fits.qubits q hq)⟩
  have ⟨ps, placed⟩ := exists_positions ready
  have ⟨p', eq, underway, layout⟩ := h.route sound.toUnderway layer ready placed
  refine ⟨_, p', eq, ⟨underway, fun q hq => ?_⟩, fun single cap => ?_⟩
  case refine_1 =>
    rw [layout, Layout.isSome_physical?_swapAll]
    exact sound.placed q hq
  case refine_2 =>
    exact h.isSome_plan p.random (sound.occupied ▸ placed.mem_occupied) (placed.length_le.trans single)
      (by omega)

variable (cap : occ.length ≤ s.cap)
include cap

theorem routeAlone (sound : Sound m s.source occ p) (layer : Nat)
    (op : (s.source.instruction? n).isSome) :
    ∃ p', routeAlone s layer p n = .ok p' ∧ Sound m s.source occ p' := by
  have ops : ∀ k ∈ [n], (s.source.instruction? k).isSome := by simpa using op
  have ⟨done, p', eq, sound', always⟩ := h.route_sound fits sound layer ops
  cases always (by simp) cap
  exact ⟨p', bind_eq_ok_iff.mpr ⟨_, eq, rfl⟩, sound'⟩

theorem routeLayer (sound : Sound m s.source occ p) {l : List Nat × Nat}
    (ops : ∀ n ∈ l.1, (s.source.instruction? n).isSome) :
    ∃ p', routeLayer s p l = .ok p' ∧ Sound m s.source occ p' := by
  have ⟨done, p₁, eq, sound₁, _⟩ := h.route_sound fits sound l.2 ops
  cases done
  case true => exact ⟨p₁, bind_eq_ok_iff.mpr ⟨_, eq, rfl⟩, sound₁⟩
  case false =>
    have ⟨p', eq', sound'⟩ := exists_foldlM_eq_ok l.1 (Sound m s.source occ)
      (fun p sound n hn => h.routeAlone fits cap sound l.2 (ops n hn)) sound₁
    exact ⟨p', bind_eq_ok_iff.mpr ⟨_, eq, eq'⟩, sound'⟩

end Prepared

variable {effort : RoutingEffort}

-- A layout on joined qubits that has all qubits of the circuit can be routed from.
theorem exists_routeAll (chooser : Chooser σ) (random : σ) (cap : effort.swapCap = none)
    (fits : ∀ n i, d.instruction? n = some i → d.FitsOnce i)
    (placed : ∀ q, d.hasWire (.qubit q) → (lay.physical? q).isSome)
    (connected : m.isConnectedSubset lay.occupied) :
    ∃ p, routeAll chooser random m effort lay d = .ok p ∧
      ∀ x ∈ p.routed.cxNodes, m.coupled x.2.1 x.2.2 := by
  have prepared := prepared_setting chooser effort d connected
  have enough : lay.occupied.length ≤ (setting chooser m effort lay d).cap := by
    simp only [setting, RoutingEffort.cap, cap, Option.getD_none]
    exact (Nat.le_mul_self _).trans (Nat.le_max_left _ _)
  obtain ⟨p, eq, sound⟩ := exists_foldlM_eq_ok d.layers.zipIdx (Sound m d lay.occupied)
    (fun p sound l hl => prepared.routeLayer fits enough sound fun n hn =>
      Dag.isSome_of_mem_layers (List.fst_mem_of_mem_zipIdx hl) hn)
    ⟨underway_start m d lay random, placed⟩
  have routed : routeAll chooser random m effort lay d = .ok p := by
    rw [routeAll, connected]
    exact eq
  refine ⟨p, routed, fun x hx => ?_⟩
  obtain ⟨i, found, cx, hc, ht⟩ := Dag.mem_cxNodes.mp hx
  obtain ⟨_, seq, written⟩ := sound.written
  have proper : i.Proper := (written.serial.fits _ ((written.serial.mem_iff _ i).mpr found)).proper
  obtain ⟨action, qubits⟩ := Instruction.qubits_of_isCx proper cx
  have pair : i.pair? = some (i.control, i.target) := by simp [Instruction.pair?, action, qubits]
  have coupled := ((confined_of_routeAll routed).ops.good _ i found).coupled _ _ pair
  rw [hc, ht]
  exact (CouplingMap.coupled_induced.mp coupled).2.2

end CircuitRouting.Routing
