import CircuitRouting.Proofs.Circuit.Built
import CircuitRouting.Proofs.Pass.SwapSearch
import CircuitRouting.Proofs.Routing.Transcript

/-!
# Routing stays on the occupied qubits

Routing looks for swaps on the qubits that the first layout occupies, and only there. What is kept by a
group of nodes after swaps that clear its cost is kept by a whole run. So all gates on two qubits end up
on coupled ones, no operation leaves the occupied qubits, and the last layout occupies the same.
-/

namespace CircuitRouting

namespace Dag

variable {d d' : Dag} {n : Nat} {i : Instruction} {is : List Instruction} {good : Instruction → Prop}

-- A graph all of whose operations are good.
structure All (d : Dag) (good : Instruction → Prop) : Prop where
  tidy : d.graph.Tidy
  good : ∀ n i, d.instruction? n = some i → good i

namespace All

theorem apply (h : d.All good) (new : i.qubits.Nodup → good i) (eq : d.apply i = .ok (n, d')) :
    d'.All good := by
  have appended := append_of_apply eq
  have fits := fits_of_append appended
  obtain rfl : (d.append i).2 = d' := congrArg Prod.snd appended
  refine ⟨tidy_append h.tidy i, fun k j found => ?_⟩
  rw [instruction?_append h.tidy fits] at found
  split at found
  case isTrue =>
    cases found
    exact new fits.nodup
  case isFalse => exact h.good k j found

-- What is applied has different operands.
theorem applyAll (h : d.All good) (new : ∀ i ∈ is, i.qubits.Nodup → good i)
    (eq : d.applyAll is = .ok d') : d'.All good := by
  induction is generalizing d
  case nil =>
    cases eq
    exact h
  case cons i is hi =>
    have ⟨n, d₁, applied, eq⟩ := of_applyAll_cons eq
    exact hi (h.apply (new i (by simp)) applied) (fun j hj => new j (by simp [hj])) eq

end All

end Dag

namespace Layout

variable {lay : Layout} {swaps : List (Nat × Nat)}

theorem isSome_physical?_swapAll (swaps : List (Nat × Nat)) (q : Nat) :
    ((lay.swapAll swaps).physical? q).isSome = (lay.physical? q).isSome := by
  induction swaps generalizing lay
  case nil => rfl
  case cons e swaps hi => rw [swapAll_cons, hi, physical?_swap, Option.isSome_map]

theorem occupied_swapAll (h : ∀ e ∈ swaps, e.1 ∈ lay.occupied ∧ e.2 ∈ lay.occupied) :
    (lay.swapAll swaps).occupied = lay.occupied := by
  induction swaps generalizing lay
  case nil => rfl
  case cons e swaps hi =>
    have ⟨here, later⟩ := List.forall_mem_cons.mp h
    have same := occupied_swap here.1 here.2
    exact (hi (same.symm ▸ later)).trans same

end Layout

theorem Instruction.Relabelled.exists_pair {lay : Layout} {i j : Instruction} {a b : Nat}
    (h : i.Relabelled lay j) (pair : j.pair? = some (a, b)) :
    ∃ x, i.pair? = some x ∧ lay.physical? x.1 = some a ∧ lay.physical? x.2 = some b := by
  have placed := h.qubits
  rw [qubits_of_pair? pair] at placed
  have ⟨x, _, hx, rest, qubits⟩ := List.forall₂_cons_right_iff.mp placed
  have ⟨y, _, hy, last, qubits'⟩ := List.forall₂_cons_right_iff.mp rest
  rw [qubits', List.forall₂_nil_right_iff.mp last] at qubits
  refine ⟨(x, y), ?_, hx, hy⟩
  rw [pair?] at pair
  split at pair
  case h_1 action _ => simp [pair?, ← h.action, action, qubits]
  case h_2 => contradiction

-- An instruction on some qubits of a device only, and on coupled ones if it is a gate on two.
structure Instruction.Confined (m : CouplingMap) (occ : List Nat) (i : Instruction) : Prop where
  inside : ∀ q ∈ i.qubits, q ∈ occ
  coupled : ∀ a b, i.pair? = some (a, b) → (m.induced occ).coupled a b

namespace Routing

open SwapSearch

variable {σ : Type} {m : CouplingMap} {d : Dag} {occ : List Nat} {lay : Layout} {p p' : Progress σ}
  {s : Setting σ} {i j : Instruction} {nodes : List Nat} {pairs : List (Nat × Nat)} {ps : Positions}
  {swaps : List (Nat × Nat)} {n layer : Nat}

section Placed

-- Pairs of qubits and where a layout has them.
def Placed (lay : Layout) (pairs : List (Nat × Nat)) (ps : Positions) : Prop :=
  List.Forall₂ (fun x y => lay.physical? x.1 = some y.1 ∧ lay.physical? x.2 = some y.2) pairs ps

theorem positions_eq_ok_iff : positions d lay nodes = .ok ps ↔ Placed lay (d.pairsOf nodes) ps := by
  rw [positions, mapM_eq_ok_iff, Placed]
  have same : ∀ x y : Nat × Nat,
      (do let p ← physical lay x.1; let q ← physical lay x.2; return (p, q)) = .ok y ↔
        lay.physical? x.1 = some y.1 ∧ lay.physical? x.2 = some y.2 := by
    intro x y
    simp [bind_eq_ok_iff, physical_eq_ok_iff, pure, Except.pure, Prod.ext_iff]
  simp only [same]

namespace Placed

theorem swap (h : Placed lay pairs ps) (a b : Nat) : Placed (lay.swap a b) pairs (move a b ps) := by
  refine List.forall₂_map_right_iff.mpr (h.imp fun x y here => ?_)
  simp [Layout.physical?_swap, here.1, here.2]

theorem swapAll (h : Placed lay pairs ps) (swaps : List (Nat × Nat)) :
    Placed (lay.swapAll swaps) pairs (moveAll ps swaps) := by
  induction swaps generalizing lay ps
  case nil => exact h
  case cons e swaps hi => exact hi (h.swap e.1 e.2)

theorem unique {ps' : Positions} (h : Placed lay pairs ps) (h' : Placed lay pairs ps') : ps = ps' := by
  refine List.right_unique_forall₂' (fun x y y' here there => ?_) h h'
  have h₁ := here.1.symm.trans there.1
  have h₂ := here.2.symm.trans there.2
  exact Prod.ext (Option.some.inj h₁) (Option.some.inj h₂)

theorem length_le (h : Placed lay (d.pairsOf nodes) ps) : ps.length ≤ nodes.length := by
  rw [← h.length_eq]
  exact List.length_filterMap_le _ _

theorem mem_occupied (h : Placed lay pairs ps) : ∀ y ∈ ps, y.1 ∈ lay.occupied ∧ y.2 ∈ lay.occupied := by
  intro y hy
  have ⟨x, _, h₁, h₂⟩ := exists_left_of_forall₂ h hy
  exact ⟨Layout.mem_occupied.mpr ⟨_, h₁⟩, Layout.mem_occupied.mpr ⟨_, h₂⟩⟩

end Placed

end Placed

section Plan

-- A setting that looks for swaps on some qubits of a device.
structure Setting.On (m : CouplingMap) (occ : List Nat) (s : Setting σ) : Prop where
  region : s.region = .build (m.induced occ) occ
  candidates : s.candidates = (m.induced occ).undirectedEdges

theorem setting_on (chooser : Chooser σ) (m : CouplingMap) (effort : RoutingEffort) (lay : Layout)
    (d : Dag) : (setting chooser m effort lay d).On m lay.occupied :=
  ⟨rfl, rfl⟩

-- The swaps for some positions, which are not looked for if nothing has to move.
def plan (s : Setting σ) (ps : Positions) : StateM σ (Option (List (Nat × Nat))) := fun r =>
  if cost? s.region ps = some 0 then (some [], r)
  else search s.chooser s.region s.candidates s.cap ps s.trials none r

theorem route_eq (s : Setting σ) (layer : Nat) (nodes : List Nat) (p : Progress σ) :
    route s layer nodes p = do
      let ps ← positions s.source p.layout nodes
      match plan s ps p.random with
      | (none, random) => return (false, { p with random })
      | (some swaps, random) => return (true, ← commit s layer nodes { p with random } swaps) := by
  rw [route]
  refine congrArg _ (funext fun ps => ?_)
  by_cases free : cost? s.region ps = some 0
  case pos => simp only [plan, free, if_true]
  case neg =>
    simp only [plan, free, if_false]
    cases search s.chooser s.region s.candidates s.cap ps s.trials none p.random
    case mk found random => cases found <;> rfl

theorem clears_of_plan (on : s.On m occ) {r r' : σ} (eq : plan s ps r = (some swaps, r')) :
    Clears (m.induced occ) occ ps swaps := by
  rw [plan, on.region, on.candidates] at eq
  split at eq
  case isTrue free =>
    cases eq
    exact .nil free
  case isFalse => exact clears_of_search eq

-- Nodes that are routed come after the planned swaps.
theorem of_route_eq_ok {done : Bool} (eq : route s layer nodes p = .ok (done, p')) :
    ∃ ps random, Placed p.layout (s.source.pairsOf nodes) ps ∧
      (done = true ∧ (∃ swaps, plan s ps p.random = (some swaps, random) ∧
        commit s layer nodes { p with random } swaps = .ok p') ∨
      done = false ∧ plan s ps p.random = (none, random) ∧ p' = { p with random }) := by
  rw [route_eq] at eq
  have ⟨ps, placed, eq⟩ := bind_eq_ok_iff.mp eq
  split at eq
  case h_1 random planned =>
    cases eq
    exact ⟨ps, random, positions_eq_ok_iff.mp placed, .inr ⟨rfl, planned, rfl⟩⟩
  case h_2 swaps random planned =>
    have ⟨p₁, committed, same⟩ := bind_eq_ok_iff.mp eq
    cases same
    exact ⟨ps, random, positions_eq_ok_iff.mp placed, .inl ⟨rfl, swaps, planned, committed⟩⟩

end Plan

-- What outlives new random states, and nodes that come after swaps which clear their cost.
structure Stable (m : CouplingMap) (occ : List Nat) (s : Setting σ) (keeps : Progress σ → Prop) :
    Prop where
  random : ∀ p random, keeps p → keeps { p with random }
  commit : ∀ p p' ps layer nodes swaps, keeps p → Placed p.layout (s.source.pairsOf nodes) ps →
    Clears (m.induced occ) occ ps swaps → commit s layer nodes p swaps = .ok p' → keeps p'

namespace Stable

variable {keeps : Progress σ → Prop} (stable : Stable m occ s keeps) (on : s.On m occ)
include stable on

theorem route {done : Bool} (h : keeps p) (eq : route s layer nodes p = .ok (done, p')) : keeps p' := by
  have ⟨ps, random, placed, result⟩ := of_route_eq_ok eq
  have start := stable.random p random h
  cases result
  case inl routed =>
    have ⟨_, swaps, planned, committed⟩ := routed
    have clears := clears_of_plan on planned
    exact stable.commit _ _ ps layer nodes swaps start placed clears committed
  case inr failed => exact failed.2.2 ▸ start

theorem routeAlone (h : keeps p) (eq : routeAlone s layer p n = .ok p') : keeps p' := by
  have ⟨⟨done, p₁⟩, routed, same⟩ := bind_eq_ok_iff.mp eq
  have h₁ := stable.route on h routed
  cases done
  case true =>
    cases same
    exact h₁
  case false => contradiction

theorem routeLayer {l : List Nat × Nat} (h : keeps p) (eq : routeLayer s p l = .ok p') : keeps p' := by
  have ⟨⟨done, p₁⟩, routed, eq⟩ := bind_eq_ok_iff.mp eq
  have h₁ := stable.route on h routed
  cases done
  case true =>
    cases eq
    exact h₁
  case false =>
    exact of_foldlM_eq_ok keeps (fun _ _ _ h step => stable.routeAlone on h step) h₁ eq

theorem routeLayers {ls : List (List Nat × Nat)} (h : keeps p)
    (eq : ls.foldlM (Routing.routeLayer s) p = .ok p') : keeps p' :=
  of_foldlM_eq_ok keeps (fun _ _ _ h step => stable.routeLayer on h step) h eq

end Stable

-- What holds while a circuit is routed from a layout.
structure Confined (m : CouplingMap) (lay : Layout) (p : Progress σ) : Prop where
  ops : p.routed.All (·.Confined m lay.occupied)
  placed : ∀ q, (p.layout.physical? q).isSome = (lay.physical? q).isSome
  occupied : p.layout.occupied = lay.occupied

theorem confined_cx {a b : Nat} (h : (m.induced occ).coupled a b) :
    (Instruction.cx a b).Confined m occ := by
  have ⟨ha, hb, _⟩ := CouplingMap.coupled_induced.mp h
  refine ⟨by simp [Instruction.cx, Instruction.gate, ha, hb], fun x y pair => ?_⟩
  cases pair
  exact h

-- A layout has the operands of a gate next to each other, unless it has them on one qubit.
def Close (m : CouplingMap) (occ : List Nat) (lay : Layout) (x : Nat × Nat) : Prop :=
  ∀ a b, lay.physical? x.1 = some a → lay.physical? x.2 = some b →
    a = b ∨ (m.induced occ).coupled a b

theorem close_of_clears (placed : Placed lay pairs ps) (clears : Clears (m.induced occ) occ ps swaps) :
    ∀ x ∈ pairs, Close m occ (lay.swapAll swaps) x := by
  intro x hx a b ha hb
  have ⟨y, hy, h₁, h₂⟩ := exists_left_of_forall₂ (placed.swapAll swaps).flip hx
  cases ha.symm.trans h₁
  cases hb.symm.trans h₂
  exact clears.close y hy

theorem confined_of_relabelled (rel : i.Relabelled lay j)
    (close : ∀ x, i.pair? = some x → Close m lay.occupied lay x) (nodup : j.qubits.Nodup) :
    j.Confined m lay.occupied := by
  refine ⟨fun q hq => ?_, fun a b pair => ?_⟩
  case refine_1 =>
    have ⟨l, _, found⟩ := exists_left_of_forall₂ rel.qubits hq
    exact Layout.mem_occupied.mpr ⟨l, found⟩
  case refine_2 =>
    have ⟨x, pair', ha, hb⟩ := rel.exists_pair pair
    rw [Instruction.qubits_of_pair? pair] at nodup
    exact (close x pair' a b ha hb).resolve_left (by simpa using nodup)

theorem of_emitNode (eq : emitNode d p n = .ok p') :
    d.instruction? n = none ∧ p' = p ∨ ∃ i j k routed, d.instruction? n = some i ∧
      i.Relabelled p.layout j ∧ p.routed.apply j = .ok (k, routed) ∧ p' = { p with routed } := by
  rw [emitNode] at eq
  split at eq
  case h_1 found =>
    cases eq
    exact .inl ⟨found, rfl⟩
  case h_2 i found =>
    obtain ⟨j, mapped, eq⟩ := bind_eq_ok_iff.mp eq
    obtain ⟨⟨k, routed⟩, applied, same⟩ := bind_eq_ok_iff.mp eq
    cases same
    exact .inr ⟨i, j, k, routed, found, mapQubitsM_eq_ok_iff.mp mapped, mapError_eq_ok_iff.mp applied,
      rfl⟩

-- Emitting nodes moves no qubit.
theorem layout_of_emitNodes (eq : nodes.foldlM (emitNode d) p = .ok p') : p'.layout = p.layout := by
  refine of_foldlM_eq_ok (fun q => q.layout = p.layout) (fun q n q' h step => ?_) rfl eq
  rcases of_emitNode step with ⟨_, rfl⟩ | ⟨_, _, _, _, _, _, _, rfl⟩
  · exact h
  · exact h

theorem layout_of_commit (eq : commit s layer nodes p swaps = .ok p') :
    p'.layout = p.layout.swapAll swaps := by
  have ⟨p₁, swapped, emitted⟩ := bind_eq_ok_iff.mp eq
  exact (layout_of_emitNodes emitted).trans (of_insertSwaps swapped).1

namespace Confined

theorem insertSwaps (h : Confined m lay p)
    (along : ∀ e ∈ swaps, (m.induced lay.occupied).coupled e.1 e.2)
    (eq : swaps.foldlM (insertSwap layer) p = .ok p') : Confined m lay p' := by
  obtain ⟨layout, applied, _⟩ := of_insertSwaps eq
  refine ⟨h.ops.applyAll (fun i hi _ => ?_) applied, fun q => ?_, ?_⟩
  case refine_1 =>
    simp only [Instruction.swapsAsCx, Instruction.swapAsCx, List.mem_flatMap, List.mem_cons,
      List.not_mem_nil, or_false] at hi
    obtain ⟨e, he, hi⟩ := hi
    have back : (m.induced lay.occupied).coupled e.2 e.1 := CouplingMap.coupled_comm ▸ along e he
    rcases hi with rfl | rfl | rfl
    · exact confined_cx (along e he)
    · exact confined_cx back
    · exact confined_cx (along e he)
  case refine_2 => rw [layout, Layout.isSome_physical?_swapAll, h.placed]
  case refine_3 =>
    rw [layout, ← h.occupied]
    refine Layout.occupied_swapAll fun e he => ?_
    obtain ⟨h₁, h₂, _⟩ := CouplingMap.coupled_induced.mp (along e he)
    exact h.occupied ▸ ⟨h₁, h₂⟩

theorem emitNode (h : Confined m lay p) (close : ∀ x ∈ d.pairsOf [n], Close m lay.occupied p.layout x)
    (eq : emitNode d p n = .ok p') : Confined m lay p' ∧ p'.layout = p.layout := by
  cases of_emitNode eq
  case inl skipped =>
    cases skipped.2
    exact ⟨h, rfl⟩
  case inr emitted =>
    have ⟨i, j, k, routed, found, rel, applied, same⟩ := emitted
    have confined : j.qubits.Nodup → j.Confined m lay.occupied := by
      rw [← h.occupied] at close ⊢
      exact confined_of_relabelled rel fun x pair => close x (by simp [Dag.pairsOf, found, pair])
    cases same
    exact ⟨⟨h.ops.apply confined applied, h.placed, h.occupied⟩, rfl⟩

theorem emitNodes (h : Confined m lay p)
    (close : ∀ x ∈ d.pairsOf nodes, Close m lay.occupied p.layout x)
    (eq : nodes.foldlM (Routing.emitNode d) p = .ok p') : Confined m lay p' := by
  induction nodes generalizing p
  case nil =>
    cases eq
    exact h
  case cons n nodes hi =>
    have split : d.pairsOf (n :: nodes) = d.pairsOf [n] ++ d.pairsOf nodes :=
      List.filterMap_append (l := [n])
    rw [split] at close
    have ⟨p₁, step, eq⟩ := bind_eq_ok_iff.mp eq
    have ⟨h₁, layout⟩ := h.emitNode (fun x hx => close x (List.mem_append_left _ hx)) step
    exact hi h₁ (fun x hx => layout ▸ close x (List.mem_append_right _ hx)) eq

theorem commit (h : Confined m lay p) (placed : Placed p.layout (s.source.pairsOf nodes) ps)
    (clears : Clears (m.induced lay.occupied) lay.occupied ps swaps)
    (eq : commit s layer nodes p swaps = .ok p') : Confined m lay p' := by
  have ⟨p₁, swapped, emitted⟩ := bind_eq_ok_iff.mp eq
  have layout := (of_insertSwaps swapped).1
  exact (h.insertSwaps clears.along swapped).emitNodes (layout ▸ close_of_clears placed clears) emitted

theorem stable : Stable m lay.occupied s (Confined m lay) where
  random _ _ h := ⟨h.ops, h.placed, h.occupied⟩
  commit _ _ _ _ _ _ h placed clears eq := h.commit placed clears eq

end Confined

theorem confined_start (m : CouplingMap) (lay : Layout) (d : Dag) (random : σ) :
    Confined m lay {
      random
      layout := lay
      routed := .ofWires (List.range m.numQubits) d.clbits .physical } := by
  have written := Dag.Written.ofWires (List.range m.numQubits) d.clbits .physical
  refine ⟨⟨written.serial.laid.tidy, fun n i found => ?_⟩, fun _ => rfl, rfl⟩
  have := (written.serial.mem_iff n i).mpr found
  simp at this

theorem confined_of_routeAll {chooser : Chooser σ} {random : σ} {effort : RoutingEffort}
    (eq : routeAll chooser random m effort lay d = .ok p) : Confined m lay p := by
  rw [routeAll] at eq
  split at eq
  case isTrue => contradiction
  case isFalse =>
    exact Confined.stable.routeLayers (setting_on ..) (confined_start m lay d random) eq

end Routing

namespace Pass

theorem run_routing_confined {σ : Type} (chooser : Chooser σ) (random : σ) (effort : RoutingEffort)
    {w w' : Workspace} (ok : (routing chooser random effort).run w = (.ok (), w')) :
    ∃ (m : CouplingMap) (lay last : Layout),
      w.properties.couplingMap = some m ∧ w.properties.layout = some lay ∧
      w'.properties.layout = some last ∧
      (∀ n i, w'.dag.instruction? n = some i →
        (∀ q ∈ i.qubits, q ∈ lay.occupied) ∧
        ∀ a b, i.pair? = some (a, b) →
          a ≠ b ∧ m.coupled a b ∧ (m.induced lay.occupied).coupled a b) ∧
      (∀ q, (last.physical? q).isSome = (lay.physical? q).isSome) ∧
      last.occupied = lay.occupied := by
  have ⟨m, lay, p, device, layout, routed, eq⟩ := of_run_routing ok
  have confined := Routing.confined_of_routeAll routed
  subst eq
  refine ⟨m, lay, p.layout, device, layout, rfl, fun n i found => ?_, confined.placed,
    confined.occupied⟩
  have good := confined.ops.good n i found
  refine ⟨good.inside, fun a b pair => ?_⟩
  have ⟨_, _, coupled⟩ := CouplingMap.coupled_induced.mp (good.coupled a b pair)
  exact ⟨(CouplingMap.inside_of_coupled coupled).2.2, coupled, good.coupled a b pair⟩

-- Gates on all pairs of three qubits in the middle of a chain.
def chainMiddle : Workspace where
  dag := (((chainWires.append (.gate .cz [0, 2])).2.append (.cx 0 1)).2.append (.cx 1 2)).2
  properties := {
    couplingMap := some (.linear 5)
    layout := some (((Layout.empty.place 0 1).place 1 2).place 2 3) }

theorem run_routing_confined_chain :
    ∃ w', (routing Chooser.first () {}).run chainMiddle = (.ok (), w') ∧
      ∃ (m : CouplingMap) (lay last : Layout),
        chainMiddle.properties.couplingMap = some m ∧ chainMiddle.properties.layout = some lay ∧
        w'.properties.layout = some last ∧
        (∀ n i, w'.dag.instruction? n = some i →
          (∀ q ∈ i.qubits, q ∈ lay.occupied) ∧
          ∀ a b, i.pair? = some (a, b) →
            a ≠ b ∧ m.coupled a b ∧ (m.induced lay.occupied).coupled a b) ∧
        (∀ q, (last.physical? q).isSome = (lay.physical? q).isSome) ∧
        last.occupied = lay.occupied :=
  ⟨_, run_of_isOk (by decide +kernel), run_routing_confined _ _ _ (run_of_isOk (by decide +kernel))⟩

end Pass

end CircuitRouting
