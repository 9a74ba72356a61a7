import CircuitRouting.Proofs.Routing.Confined

/-!
# Routing without swaps

If routing inserts no swap, the gates of every layer have been next to each other from the start, and
nothing has been searched for: a search that succeeds returns a swap, and after one that fails some
operation of its layer gets a swap of its own. So the same is routed with any other choices.
-/

namespace CircuitRouting

namespace SwapSearch

theorem cost?_append {region : DistanceTable} {ps qs : Positions} (first : cost? region ps = some 0)
    (second : cost? region qs = some 0) : cost? region (ps ++ qs) = some 0 := by
  induction ps
  case nil => exact second
  case cons x ps hi =>
    simp only [cost?, List.cons_append, Option.bind_eq_bind, Option.bind_eq_some_iff, Option.pure_def,
      Option.some.injEq] at first ⊢
    obtain ⟨d, near, c, rest, sum⟩ := first
    obtain ⟨close, rfl⟩ : d - 1 = 0 ∧ c = 0 := by omega
    exact ⟨d, near, 0, hi rest, by omega⟩

end SwapSearch

namespace Routing

open SwapSearch

variable {σ τ : Type} {m : CouplingMap} {occ : List Nat} {s : Setting σ} {t : Setting τ}
  {p p' : Progress σ} {d : Dag} {lay : Layout} {region : DistanceTable} {ps : Positions}
  {swaps : List (Nat × Nat)} {nodes : List Nat} {layer n : Nat} {done : Bool}

section Free

-- A layout has the two-qubit gates among some nodes where they have no way to go.
def Free (d : Dag) (region : DistanceTable) (lay : Layout) (nodes : List Nat) : Prop :=
  ∃ ps, Placed lay (d.pairsOf nodes) ps ∧ cost? region ps = some 0

theorem Free.of_each (h : ∀ n ∈ nodes, Free d region lay [n]) : Free d region lay nodes := by
  induction nodes
  case nil => exact ⟨[], .nil, rfl⟩
  case cons n nodes hi =>
    have ⟨⟨ps, placed, free⟩, later⟩ := List.forall_mem_cons.mp h
    have ⟨qs, placed', free'⟩ := hi later
    have split : d.pairsOf (n :: nodes) = d.pairsOf [n] ++ d.pairsOf nodes :=
      List.filterMap_append (l := [n])
    exact ⟨ps ++ qs, split ▸ List.rel_append placed placed', cost?_append free free'⟩

theorem plan_of_free (free : cost? s.region ps = some 0) (r : σ) : plan s ps r = (some [], r) := by
  rw [plan, if_pos free]

-- A plan without swaps has not been searched for.
theorem free_of_plan {r r' : σ} (on : s.On m occ) (eq : plan s ps r = (some [], r')) :
    cost? s.region ps = some 0 ∧ r' = r := by
  have free : cost? s.region ps = some 0 := on.region ▸ (clears_of_plan on eq).free
  rw [plan_of_free free] at eq
  exact ⟨free, (Prod.mk.inj eq).2.symm⟩

theorem swaps_of_emitNodes (eq : nodes.foldlM (emitNode d) p = .ok p') : p'.swaps = p.swaps := by
  refine of_foldlM_eq_ok (fun q => q.swaps = p.swaps) (fun q n q' h step => ?_) rfl eq
  rcases of_emitNode step with ⟨_, rfl⟩ | ⟨_, _, _, _, _, _, _, rfl⟩
  · exact h
  · exact h

theorem swaps_of_commit (eq : commit s layer nodes p swaps = .ok p') :
    p'.swaps = p.swaps ++ swaps.map fun e => ⟨layer, e.1, e.2⟩ := by
  have ⟨_, swapped, emitted⟩ := bind_eq_ok_iff.mp eq
  exact (swaps_of_emitNodes emitted).trans (of_insertSwaps swapped).2.2

-- Swaps are only added.
theorem stable_swaps (first : List SwapRecord) : Stable m occ s fun p => first <+: p.swaps where
  random _ _ h := h
  commit _ _ _ _ _ _ h _ _ eq := h.trans (swaps_of_commit eq ▸ List.prefix_append _ _)

end Free

section Unswapped

theorem route_of_free (free : Free s.source s.region p.layout nodes) :
    route s layer nodes p = (nodes.foldlM (emitNode s.source) p).map (true, ·) := by
  obtain ⟨ps, placed, zero⟩ := free
  have direct : commit s layer nodes p [] = nodes.foldlM (emitNode s.source) p := rfl
  rw [route, positions_eq_ok_iff.mpr placed]
  simp only [bind, Except.bind, zero, if_true, direct]
  cases nodes.foldlM (emitNode s.source) p <;> rfl

variable (on : s.On m occ)
include on

-- What is routed at once without a swap is free.
theorem free_of_route (eq : route s layer nodes p = .ok (true, p')) (none : p'.swaps = p.swaps) :
    Free s.source s.region p.layout nodes := by
  have ⟨ps, random, placed, result⟩ := of_route_eq_ok eq
  have ⟨_, swaps, planned, committed⟩ := result.resolve_right (by simp)
  have empty : swaps = [] := by simpa [swaps_of_commit committed] using none
  subst empty
  exact ⟨ps, placed, (free_of_plan on planned).1⟩

-- What is not routed at once is not free.
omit on in
theorem of_route_eq_false (eq : route s layer nodes p = .ok (false, p')) :
    p'.layout = p.layout ∧ p'.swaps = p.swaps ∧ ¬Free s.source s.region p.layout nodes := by
  have ⟨_, _, _, result⟩ := of_route_eq_ok eq
  obtain ⟨_, _, same⟩ := result.resolve_left (by simp)
  subst same
  refine ⟨rfl, rfl, fun free => ?_⟩
  rw [route_of_free free] at eq
  obtain ⟨_, _, same⟩ := map_eq_ok_iff.mp eq
  simp at same

theorem of_routeAlone_eq_ok (eq : routeAlone s layer p n = .ok p') (none : p'.swaps = p.swaps) :
    Free s.source s.region p.layout [n] ∧ p'.layout = p.layout := by
  obtain ⟨⟨done, p₁⟩, routed, same⟩ := bind_eq_ok_iff.mp eq
  cases done
  case false => contradiction
  case true =>
    cases same
    have free := free_of_route on routed none
    rw [route_of_free free] at routed
    obtain ⟨_, emitted, same⟩ := map_eq_ok_iff.mp routed
    cases same
    exact ⟨free, layout_of_emitNodes emitted⟩

-- Where each operation is routed alone and none needs a swap, all of them are free together.
theorem free_of_routeAlone (eq : nodes.foldlM (routeAlone s layer) p = .ok p')
    (none : p'.swaps = p.swaps) : ∀ n ∈ nodes, Free s.source s.region p.layout [n] := by
  induction nodes generalizing p
  case nil => simp
  case cons n nodes hi =>
    have ⟨p₁, step, rest⟩ := bind_eq_ok_iff.mp eq
    have here := (stable_swaps p.swaps).routeAlone on (List.prefix_refl _) step
    have later := of_foldlM_eq_ok (fun q => p₁.swaps <+: q.swaps)
      (fun _ _ _ h step => (stable_swaps p₁.swaps).routeAlone on h step) (List.prefix_refl _) rest
    have same : p₁.swaps = p.swaps := (none ▸ later).eq_of_length_le here.length_le
    have ⟨free, layout⟩ := of_routeAlone_eq_ok on step same
    exact List.forall_mem_cons.mpr ⟨free, layout ▸ hi rest (none.trans same.symm)⟩

theorem free_of_routeLayer {l : List Nat × Nat} (eq : routeLayer s p l = .ok p')
    (none : p'.swaps = p.swaps) : Free s.source s.region p.layout l.1 := by
  have ⟨⟨done, p₁⟩, routed, eq⟩ := bind_eq_ok_iff.mp eq
  cases done
  case true =>
    cases eq
    exact free_of_route on routed none
  case false =>
    have ⟨layout, swaps, blocked⟩ := of_route_eq_false routed
    have each := free_of_routeAlone on eq (none.trans swaps.symm)
    exact absurd (.of_each (layout ▸ each)) blocked

end Unswapped

section Rerun

-- The same progress with another random state.
def Progress.withRandom (p : Progress σ) (r : τ) : Progress τ :=
  { random := r, layout := p.layout, routed := p.routed, swaps := p.swaps }

theorem emitNode_withRandom (p : Progress σ) (r : τ) (n : Nat) :
    emitNode d (p.withRandom r) n = (emitNode d p n).map (·.withRandom r) := by
  rw [emitNode, emitNode]
  cases d.instruction? n
  case none => rfl
  case some i =>
    cases mapped : i.mapQubitsM (physical p.layout)
    case error => simp only [Progress.withRandom, mapped]; rfl
    case ok j =>
      simp only [Progress.withRandom, mapped]
      cases applied : p.routed.apply j <;> simp only [bind, Except.bind, applied] <;> rfl

theorem emitNodes_withRandom (r : τ) (eq : nodes.foldlM (emitNode d) p = .ok p') :
    nodes.foldlM (emitNode d) (p.withRandom r) = .ok (p'.withRandom r) := by
  induction nodes generalizing p
  case nil =>
    cases eq
    rfl
  case cons n nodes hi =>
    have ⟨p₁, step, rest⟩ := bind_eq_ok_iff.mp eq
    rw [List.foldlM_cons, emitNode_withRandom, step]
    exact hi rest

variable (on : s.On m occ) (source : t.source = s.source) (tables : t.region = s.region) (r : τ)
include on source tables

theorem routeLayer_withRandom {l : List Nat × Nat} (eq : routeLayer s p l = .ok p')
    (none : p'.swaps = p.swaps) : routeLayer t (p.withRandom r) l = .ok (p'.withRandom r) := by
  have free := free_of_routeLayer on eq none
  have ⟨⟨done, p₁⟩, routed, rest⟩ := bind_eq_ok_iff.mp eq
  rw [route_of_free free] at routed
  have ⟨_, emitted, same⟩ := map_eq_ok_iff.mp routed
  cases same
  cases rest
  have again : route t l.2 l.1 (p.withRandom r) = .ok (true, p'.withRandom r) := by
    rw [route_of_free (by rw [source, tables]; exact free), source, emitNodes_withRandom r emitted]
    rfl
  rw [routeLayer, again]
  rfl

theorem routeLayers_withRandom {ls : List (List Nat × Nat)}
    (eq : ls.foldlM (routeLayer s) p = .ok p') (none : p'.swaps = p.swaps) :
    ls.foldlM (routeLayer t) (p.withRandom r) = .ok (p'.withRandom r) := by
  induction ls generalizing p
  case nil =>
    cases eq
    rfl
  case cons l ls hi =>
    have ⟨p₁, step, rest⟩ := bind_eq_ok_iff.mp eq
    have here := (stable_swaps p.swaps).routeLayer on (List.prefix_refl _) step
    have later := (stable_swaps p₁.swaps).routeLayers on (List.prefix_refl _) rest
    have same : p₁.swaps = p.swaps := (none ▸ later).eq_of_length_le here.length_le
    rw [List.foldlM_cons, routeLayer_withRandom on source tables r step same]
    exact hi rest (none.trans same.symm)

end Rerun

theorem routeAll_of_no_swaps {chooser : Chooser σ} {random : σ} {effort : RoutingEffort}
    (eq : routeAll chooser random m effort lay d = .ok p) (none : p.swaps = []) (chooser' : Chooser τ)
    (random' : τ) (effort' : RoutingEffort) :
    routeAll chooser' random' m effort' lay d = .ok (p.withRandom random') := by
  rw [routeAll] at eq ⊢
  split at eq
  case isTrue => contradiction
  case isFalse connected =>
    rw [if_neg connected]
    exact routeLayers_withRandom (t := setting chooser' m effort' lay d)
      (setting_on chooser m effort lay d) rfl rfl random' eq none

end Routing

end CircuitRouting
