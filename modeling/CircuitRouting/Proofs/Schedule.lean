import CircuitRouting.Proofs.Layers
import CircuitRouting.Proofs.Simplification

/-!
# Schedules

An instruction starts as soon as its wires are free, and holds them for one unit of time. The times
stay the same when instructions that are apart change places. In a circuit graph the time of an
operation is its depth, and the layers are what starts at the times 0, 1, 2 and so on: the same for
all orders of a program.
-/

namespace CircuitRouting

namespace Instruction

variable {free free' : Wire → Nat} {i j : Instruction} {k : Nat}

-- When an instruction starts, if each wire is free from a given time on.
def start (free : Wire → Nat) (i : Instruction) : Nat :=
  (i.wires.map free).foldr max 0

-- From when on the wires are free after an instruction.
def hold (free : Wire → Nat) (i : Instruction) (w : Wire) : Nat :=
  if w ∈ i.wires then i.start free + 1 else free w

theorem start_le_iff : i.start free ≤ k ↔ ∀ w ∈ i.wires, free w ≤ k := by
  rw [start]
  induction i.wires
  case nil => simp
  case cons w ws hi => simp [hi]

theorem start_congr (same : ∀ w ∈ i.wires, free w = free' w) : i.start free = i.start free' := by
  rw [start, start, List.map_congr_left same]

theorem start_hold (apart : i.Apart j) : i.start (j.hold free) = i.start free :=
  start_congr fun w hw => if_neg (apart w hw)

theorem hold_hold (apart : i.Apart j) : i.hold (j.hold free) = j.hold (i.hold free) := by
  funext w
  by_cases hi : w ∈ i.wires
  case pos => simp [hold, hi, apart w hi, start_hold apart]
  case neg => simp [hold, hi, start_hold apart.symm]

theorem lowestQubit_mem (some : i.qubits ≠ []) : i.lowestQubit ∈ i.qubits := by
  rw [lowestQubit]
  cases least : i.qubits.min?
  case none => exact absurd (List.min?_eq_none_iff.mp least) some
  case some q => exact List.min?_mem least

theorem Plain.eq_barrier (h : i.Plain) (proper : i.Proper) (none : i.qubits = []) :
    i = .barrier [] := by
  have ⟨action, qubits, clbits⟩ := i
  subst none
  cases action
  case gate g =>
    have len := proper.arity g.arity rfl
    cases g <;> simp [Gate.arity] at len
  case measure => simpa using proper.arity 1 rfl
  case barrier => simpa [Plain, isMeasure, barrier] using h

end Instruction

-- A program, with the time at which each instruction starts.
def timed (free : Wire → Nat) : List Instruction → List (Nat × Instruction)
  | [] => []
  | i :: is => (i.start free, i) :: timed (i.hold free) is

-- Times do not depend on the order of what is apart.
theorem Reorders.perm_timed {is js : List Instruction} (h : Reorders is js) (free : Wire → Nat) :
    (timed free is).Perm (timed free js) := by
  induction h generalizing free
  case refl => exact .refl _
  case swap i j l r apart =>
    induction l generalizing free
    case nil =>
      simp only [List.nil_append, timed, Instruction.start_hold apart,
        Instruction.start_hold apart.symm, Instruction.hold_hold apart]
      exact .swap ..
    case cons x l hi => exact (hi _).cons _
  case trans hi hi' => exact (hi free).trans (hi' free)

theorem Pending.before_trans (a b c : Pending) (h : a.before b) (h' : b.before c) : a.before c := by
  simp only [before, pairLt, Bool.or_eq_true, decide_eq_true_eq, Bool.and_eq_true, beq_iff_eq]
    at h h' ⊢
  omega

namespace Dag

variable {d d' : Dag} {δ δ' : Nat → Nat} {n m : Nat} {i : Instruction}
  {seq seq' u v : List (Nat × Instruction)}

-- An operation comes just after the last one before it on each of its wires.
theorem Serial.mem_opPredecessors_iff (h : d.Serial (u ++ (n, i) :: v)) :
    m ∈ d.wiring.opPredecessors n i ↔ ∃ w ∈ i.wires, (onWire w u).getLast? = some m := by
  have member : (n, i) ∈ u ++ (n, i) :: v := by simp
  have before : ∀ w ∈ i.wires, (d.instruction? m).isSome →
      (⟨m, n, w⟩ ∈ d.graph.edges ↔ (onWire w u).getLast? = some m) := by
    intro w hw op
    obtain ⟨e, he, eq⟩ := hasWire_iff.mp (h.hasWire member hw)
    subst eq
    have path : track (onWire · (u ++ (n, i) :: v)) e =
        (e.input :: onWire e.wire u) ++ n :: (onWire e.wire v ++ [e.output]) := by
      simp [track, onWire_cons, hw]
    have ne := h.laid.ne_input he op
    rw [h.laid.mem_edges_iff he, path, mem_hops_iff_getLast? (path ▸ h.laid.track_nodup he),
      List.getLast?_cons]
    cases (onWire e.wire u).getLast?
    case none => simpa using ne.symm
    case some => simp
  rw [h.tied.before ((h.mem_iff n i).mp member)]
  constructor
  case mp =>
    rintro ⟨op, w, edge⟩
    have hw := h.mem_wires_of_edge member edge (.inr rfl)
    exact ⟨w, hw, (before w hw op).mp edge⟩
  case mpr =>
    rintro ⟨w, hw, last⟩
    obtain ⟨j, hj, _⟩ := mem_onWire.mp (List.mem_of_getLast? last)
    have op : (d.instruction? m).isSome := by simp [(h.mem_iff m j).mp (by simp [hj])]
    exact ⟨op, w, (before w hw op).mpr last⟩

-- The depth of each operation, the number of operations on the longest chain before it, as the
-- operations have it when they start to wait.
structure Depths (d : Dag) (δ : Nat → Nat) : Prop where
  chain : ∀ n i, d.instruction? n = some i → ∀ k, δ n ≤ k ↔
    ∀ m ∈ d.wiring.opPredecessors n i, δ m < k
  pending : d.pending.map (fun p => (p.node, p.depth, p.lowest)) =
    d.topologicalOps.map fun x => (x.1, δ x.1, x.2.lowestQubit)

-- From when on a wire is free after some operations.
def freeAfter (δ : Nat → Nat) (u : List (Nat × Instruction)) (w : Wire) : Nat :=
  (onWire w u).getLast?.elim 0 (δ · + 1)

theorem Depths.start_freeAfter (depths : d.Depths δ) (h : d.Serial (u ++ (n, i) :: v)) :
    i.start (freeAfter δ u) = δ n := by
  refine eq_of_forall_ge_iff fun k => ?_
  rw [Instruction.start_le_iff, depths.chain n i ((h.mem_iff n i).mp (by simp))]
  simp only [h.mem_opPredecessors_iff, forall_exists_index, and_imp]
  constructor
  case mp =>
    intro le m w hw last
    have := le w hw
    rwa [freeAfter, last] at this
  case mpr =>
    intro lt w hw
    cases last : (onWire w u).getLast?
    case none => simp [freeAfter, last]
    case some m =>
      rw [freeAfter, last]
      exact lt m w hw last

theorem Depths.hold_freeAfter (depths : d.Depths δ) (h : d.Serial (u ++ (n, i) :: v)) :
    i.hold (freeAfter δ u) = freeAfter δ (u ++ [(n, i)]) := by
  funext w
  by_cases hw : w ∈ i.wires
  case pos => simp [Instruction.hold, freeAfter, onWire_cons, hw, depths.start_freeAfter h]
  case neg => simp [Instruction.hold, freeAfter, onWire_cons, hw]

-- The time of an operation is its depth.
theorem Depths.timed_eq (depths : d.Depths δ) (h : d.Serial (u ++ v)) :
    timed (freeAfter δ u) (v.map Prod.snd) = v.map fun x => (δ x.1, x.2) := by
  induction v generalizing u
  case nil => rfl
  case cons x v hi =>
    have rest := hi (u := u ++ [x]) (by simpa using h)
    rw [List.map_cons, timed, depths.start_freeAfter h, depths.hold_freeAfter h, rest]
    rfl

theorem foldl_max_le_iff {α : Type} {f : α → Nat} {xs : List α} {a k : Nat} :
    xs.foldl (fun m x => max m (f x)) a ≤ k ↔ a ≤ k ∧ ∀ x ∈ xs, f x ≤ k := by
  induction xs generalizing a
  case nil => simp
  case cons x xs hi =>
    simp only [List.foldl_cons, hi, List.forall_mem_cons, max_le_iff]
    tauto

-- The lengths of the longest chains, if each operation comes after those that it waits for.
theorem exists_chainLengths {ops : List (Nat × List Nat)} {done : List Nat} (δ : Nat → Nat)
    (nodup : (done ++ ops.map Prod.fst).Nodup)
    (earlier : ∀ u x v, ops = u ++ x :: v → ∀ m ∈ x.2, m ∈ done ++ u.map Prod.fst) :
    ∃ δ' : Nat → Nat, (∀ n ∈ done, δ' n = δ n) ∧
      chainLengths ops (done.map fun n => (n, δ n)).reverse =
        (done ++ ops.map Prod.fst).map (fun n => (n, δ' n)) ∧
      ∀ x ∈ ops, ∀ k, δ' x.1 ≤ k ↔ ∀ m ∈ x.2, δ' m < k := by
  induction ops generalizing done δ
  case nil => exact ⟨δ, fun _ _ => rfl, by simp [chainLengths], by simp⟩
  case cons x ops hi =>
    have known : ∀ m ∈ x.2, m ∈ done := by simpa using earlier [] x ops rfl
    have fresh : x.1 ∉ done := fun mem => (List.nodup_append.mp nodup).2.2 _ mem _ (by simp) rfl
    let depth := (x.2.map δ).foldl (fun m k => max m (k + 1)) 0
    have later : ∀ u y v, ops = u ++ y :: v → ∀ m ∈ y.2, m ∈ (done ++ [x.1]) ++ u.map Prod.fst := by
      intro u y v eq m hm
      simpa using earlier (x :: u) y v (by simp [eq]) m hm
    obtain ⟨δ', same, eq, spec⟩ := hi (Function.update δ x.1 depth) (by simpa using nodup) later
    have kept : ∀ n ∈ done, Function.update δ x.1 depth n = δ n := fun n hn =>
      Function.update_of_ne (ne_of_mem_of_not_mem hn fresh) depth δ
    have old : ∀ n ∈ done, δ' n = δ n := fun n hn =>
      (same n (by simp [hn])).trans (kept n hn)
    have new : δ' x.1 = depth := by rw [same x.1 (by simp), Function.update_self]
    refine ⟨δ', old, ?_, List.forall_mem_cons.mpr ⟨fun k => ?_, spec⟩⟩
    case refine_1 =>
      have found : x.2.filterMap (fun m => (done.map fun n => (n, δ n)).reverse.lookup m) =
          x.2.map δ := by
        rw [← List.map_reverse, ← List.filterMap_eq_map (f := δ)]
        exact List.filterMap_congr fun m hm => List.lookup_graph δ (by simpa using known m hm)
      have updated : (x.1, depth) :: (done.map fun n => (n, δ n)).reverse =
          ((done ++ [x.1]).map fun n => (n, Function.update δ x.1 depth n)).reverse := by
        have same : done.map (fun n => (n, Function.update δ x.1 depth n)) =
            done.map fun n => (n, δ n) :=
          List.map_congr_left fun n hn => by rw [kept n hn]
        simp [same]
      rw [chainLengths, found, updated, eq]
      simp
    case refine_2 =>
      rw [new, foldl_max_le_iff]
      simp only [Nat.zero_le, true_and, List.forall_mem_map]
      exact forall₂_congr fun m hm => by rw [old m (known m hm), Nat.add_one_le_iff]

theorem Tied.exists_depths (h : d.Tied) : ∃ δ, d.Depths δ := by
  let preds := d.topologicalOps.map fun x => (x.1, d.wiring.opPredecessors x.1 x.2)
  have fst : preds.map Prod.fst = d.topologicalOps.map Prod.fst := by simp [preds]
  have earlier : ∀ u x v, preds = u ++ x :: v → ∀ m ∈ x.2, m ∈ [] ++ u.map Prod.fst := by
    intro u x v eq m hm
    have ⟨u', rest, split, front, eq⟩ := List.map_eq_append_iff.mp eq
    have ⟨y, v', split', here, _⟩ := List.map_eq_cons_iff.mp eq
    subst front here split'
    have ⟨op, w, edge⟩ := (h.before ((h.lists.mem_iff y.1 y.2).mp (by simp [split]))).mp hm
    simpa using mem_of_topologicalOps_eq split edge rfl op
  have ⟨δ, _, lengths, spec⟩ :=
    exists_chainLengths (fun _ => 0) (by simpa [fst] using h.lists.nodup) earlier
  refine ⟨δ, fun n i found k => ?_, ?_⟩
  case refine_1 =>
    have mem : (n, d.wiring.opPredecessors n i) ∈ preds :=
      List.mem_map_of_mem (f := fun x : Nat × Instruction => (x.1, d.wiring.opPredecessors x.1 x.2))
        ((h.lists.mem_iff n i).mpr found)
    exact spec _ mem k
  case refine_2 =>
    have lengths : chainLengths preds [] = d.topologicalOps.map fun x => (x.1, δ x.1) := by
      simpa [fst, Function.comp_def] using lengths
    simp only [preds] at lengths
    exact List.ext_getElem (by simp [length_pending]) fun k h₁ h₂ => by simp [pending, lengths]

-- The lowest qubit of the instruction of a node, if it has one.
def lowestOf (o : Option Instruction) : Nat :=
  (o.map Instruction.lowestQubit).getD 0

-- What the operations of a layer are sorted by.
def sortKey (d : Dag) (n : Nat) : Nat × Nat :=
  (lowestOf (d.instruction? n), n)

-- The time and the instruction of an operation that waits.
def entry (d : Dag) (p : Pending) : Nat × Option Instruction :=
  (p.depth, d.instruction? p.node)

-- Operations that wait for their time, when all of earlier times are done.
structure Due (d : Dag) (δ : Nat → Nat) (now : Nat) (done : List Nat)
    (waiting : List Pending) : Prop extends Waiting done waiting where
  depth : ∀ p ∈ waiting, p.depth = δ p.node
  lowest : ∀ p ∈ waiting, p.lowest = lowestOf (d.instruction? p.node)
  wait : ∀ p ∈ waiting, ∀ k, p.depth ≤ k ↔ ∀ m ∈ p.releasers, δ m < k
  past : ∀ m ∈ done, δ m < now
  due : ∀ p ∈ waiting, now ≤ p.depth

namespace Due

variable {now fuel : Nat} {done done' : List Nat} {waiting waiting' : List Pending} {p : Pending}

-- What is ready is what starts now.
theorem ready_iff (h : d.Due δ now done waiting) (hp : p ∈ waiting) :
    p.needed = 0 ↔ p.depth = now := by
  have ready : p.needed = 0 ↔ ∀ m ∈ p.releasers, m ∈ done := by
    simp [h.needed p hp, List.countP_eq_zero]
  have late := h.due p hp
  rw [ready]
  constructor
  case mp =>
    intro all
    have := (h.wait p hp now).mpr fun m hm => h.past m (all m hm)
    omega
  case mpr =>
    intro eq m hm
    have early := (h.wait p hp now).mp eq.le m hm
    refine (h.releasers p hp m hm).resolve_right fun mem => ?_
    have ⟨q, hq, node⟩ := List.mem_map.mp mem
    have := h.due q hq
    rw [h.depth q hq, node] at this
    omega

theorem next (h : d.Due δ now done waiting) :
    d.Due δ (now + 1) (done ++ nextLayer waiting) (afterLayer waiting) := by
  have old : ∀ p ∈ afterLayer waiting, ∃ q ∈ waiting, q.needed ≠ 0 ∧
      p = q.release (nextLayer waiting) := by
    intro p hp
    have ⟨q, hq, eq⟩ := List.mem_map.mp hp
    have ⟨hq, needed⟩ := List.mem_filter.mp hq
    exact ⟨q, hq, by simpa using needed, eq.symm⟩
  refine ⟨h.toWaiting.next, fun p hp => ?_, fun p hp => ?_, fun p hp => ?_, fun m hm => ?_,
    fun p hp => ?_⟩
  case refine_4 =>
    cases List.mem_append.mp hm
    case inl hm => exact Nat.lt_succ_of_lt (h.past m hm)
    case inr hm =>
      have ⟨p, hp, ready, node⟩ := mem_nextLayer hm
      have := (h.ready_iff hp).mp ready
      rw [← node, ← h.depth p hp]
      omega
  all_goals
    have ⟨q, hq, needed, eq⟩ := old p hp
    subst eq
  case refine_1 => exact h.depth q hq
  case refine_2 => exact h.lowest q hq
  case refine_3 => exact h.wait q hq
  case refine_5 =>
    have late := h.due q hq
    have := mt (h.ready_iff hq).mpr needed
    show now + 1 ≤ q.depth
    omega

-- The ready operations are sorted by their lowest qubits, and by their numbers where these agree.
theorem sorted_nextLayer (h : d.Due δ now done waiting) :
    (nextLayer waiting).Pairwise fun n m => pairLt (d.sortKey n) (d.sortKey m) := by
  rw [nextLayer, List.pairwise_map]
  have sorted := pairwise_sortUnique Pending.before_trans (waiting.filter fun p => p.needed == 0)
  refine sorted.imp_of_mem fun {p q} hp hq before => ?_
  have ⟨hp, ready⟩ := List.mem_filter.mp (mem_of_mem_sortUnique hp)
  have ⟨hq, ready'⟩ := List.mem_filter.mp (mem_of_mem_sortUnique hq)
  have now := (h.ready_iff hp).mp (by simpa using ready)
  have now' := (h.ready_iff hq).mp (by simpa using ready')
  simpa [Pending.before, sortKey, ← h.lowest p hp, ← h.lowest q hq, now, now'] using before

theorem pairwise_nextLayer (h : d.Due δ now done waiting) :
    ((nextLayer waiting).map d.instruction?).Pairwise fun a b => lowestOf a ≤ lowestOf b := by
  refine List.pairwise_map.mpr (h.sorted_nextLayer.imp fun {n m} lt => ?_)
  rw [pairLt_iff, sortKey, sortKey] at lt
  omega

theorem map_ready (h : d.Due δ now done waiting) :
    (waiting.filter fun p => p.needed == 0).map d.entry =
      (waiting.map d.entry).filter (·.1 == now) := by
  rw [List.filter_map]
  refine congrArg _ (List.filter_congr fun p hp => ?_)
  exact Bool.eq_iff_iff.mpr (by simpa [entry] using h.ready_iff hp)

theorem map_afterLayer (h : d.Due δ now done waiting) :
    (afterLayer waiting).map d.entry = (waiting.map d.entry).filter (·.1 != now) := by
  rw [afterLayer, List.map_map, List.filter_map]
  refine congrArg _ (List.filter_congr fun p hp => ?_)
  exact Bool.eq_iff_iff.mpr (by simpa [entry] using not_congr (h.ready_iff hp))

theorem perm_nextLayer (h : d.Due δ now done waiting) :
    ((nextLayer waiting).map d.instruction?).Perm
      (((waiting.map d.entry).filter (·.1 == now)).map Prod.snd) := by
  rw [← h.map_ready, List.map_map]
  have perm := h.toWaiting.perm_nextLayer.map d.instruction?
  rwa [List.map_map] at perm

-- Operations that start at the same times are in the same layers, and stand there in the same order
-- if their lowest qubits tell them apart.
theorem map_layersFrom_eq (h : d.Due δ now done waiting) (h' : d'.Due δ' now done' waiting')
    (perm : (waiting.map d.entry).Perm (waiting'.map d'.entry))
    (told : ∀ layer ∈ layersFrom fuel waiting, ∀ n ∈ layer, ∀ m ∈ layer,
      lowestOf (d.instruction? n) = lowestOf (d.instruction? m) →
        d.instruction? n = d.instruction? m) :
    (layersFrom fuel waiting).map (·.map d.instruction?) =
      (layersFrom fuel waiting').map (·.map d'.instruction?) := by
  induction fuel generalizing now done done' waiting waiting'
  case zero => rfl
  case succ fuel hi =>
    have ready := perm.filter (·.1 == now)
    have empty : (waiting.filter fun p => p.needed == 0).isEmpty =
        (waiting'.filter fun p => p.needed == 0).isEmpty := by
      have len := ready.length_eq
      rw [← h.map_ready, ← h'.map_ready, List.length_map, List.length_map] at len
      rw [Bool.eq_iff_iff, List.isEmpty_iff_length_eq_zero, List.isEmpty_iff_length_eq_zero, len]
    rw [layersFrom_succ] at told
    rw [layersFrom_succ, layersFrom_succ, ← empty]
    split
    case isTrue => rfl
    case isFalse some =>
      rw [if_neg some, List.forall_mem_cons] at told
      have layer : (nextLayer waiting).map d.instruction? =
          (nextLayer waiting').map d'.instruction? := by
        -- Both are sorted by lowest qubits, which leaves no choice where these differ.
        have same := h.perm_nextLayer.trans ((ready.map Prod.snd).trans h'.perm_nextLayer.symm)
        refine same.eq_of_pairwise (fun a b ha hb le le' => ?_) h.pairwise_nextLayer
          h'.pairwise_nextLayer
        have ⟨n, hn, eq⟩ := List.mem_map.mp ha
        have ⟨m, hm, eq'⟩ := List.mem_map.mp (same.mem_iff.mpr hb)
        subst eq eq'
        exact told.1 n hn m hm (le_antisymm le le')
      have rest := hi h.next h'.next (by
        rw [h.map_afterLayer, h'.map_afterLayer]
        exact perm.filter _) told.2
      rw [List.map_cons, List.map_cons, layer, rest]

end Due

namespace Depths

section Tied

variable (depths : d.Depths δ) (h : d.Tied)
include depths h

theorem of_mem_pending {p : Pending} (hp : p ∈ d.pending) :
    ∃ i, d.instruction? p.node = some i ∧ p.depth = δ p.node ∧ p.lowest = i.lowestQubit := by
  have mem := List.mem_map_of_mem (f := fun p : Pending => (p.node, p.depth, p.lowest)) hp
  rw [depths.pending] at mem
  have ⟨x, hx, same⟩ := List.mem_map.mp mem
  simp only [Prod.mk.injEq] at same
  have ⟨node, depth, lowest⟩ := same
  rw [← node, ← depth, ← lowest]
  exact ⟨x.2, (h.lists.mem_iff x.1 x.2).mp hx, rfl, rfl⟩

-- At the start everything waits.
theorem due : d.Due δ 0 [] d.pending := by
  refine ⟨h.waiting_pending, fun p hp => ?_, fun p hp => ?_, fun p hp k => ?_, by simp, by simp⟩
  all_goals have ⟨i, found, depth, low⟩ := depths.of_mem_pending h hp
  case refine_1 => exact depth
  case refine_2 => simp [low, lowestOf, found]
  case refine_3 =>
    rw [depth, depths.chain p.node i found]
    refine forall_congr' fun m => imp_congr_left ?_
    rw [h.before found, h.mem_releasers hp]

end Tied

-- What waits is the timed program.
theorem map_entry_pending (depths : d.Depths δ) (h : d.Serial seq) :
    d.pending.map d.entry = (timed (fun _ => 0) d.instructions).map (Prod.map id some) := by
  have top := h.topologicalOps
  have times := depths.timed_eq (u := []) (v := d.topologicalOps) top
  have found : ∀ x ∈ d.topologicalOps, d.instruction? x.1 = some x.2 := fun x hx =>
    (top.mem_iff x.1 x.2).mp hx
  calc d.pending.map d.entry
    _ = (d.pending.map fun p => (p.node, p.depth, p.lowest)).map
        fun x => (x.2.1, d.instruction? x.1) := by
      rw [List.map_map]
      rfl
    _ = d.topologicalOps.map fun x => (δ x.1, d.instruction? x.1) := by
      rw [depths.pending, List.map_map]
      rfl
    _ = d.topologicalOps.map fun x => (δ x.1, some x.2) :=
      List.map_congr_left fun x hx => by rw [found x hx]
    _ = (timed (freeAfter δ []) d.instructions).map (Prod.map id some) := by
      rw [instructions, times, List.map_map]
      rfl

end Depths

-- The place of an instruction without qubits is no qubit of the graph.
theorem Fits.qubits_eq_nil_iff (fits : d.Fits i)
    (small : ∀ q, d.hasWire (.qubit q) → q < UInt32.size - 1) :
    i.qubits = [] ↔ i.lowestQubit = UInt32.size - 1 := by
  constructor
  case mp =>
    intro none
    rw [Instruction.lowestQubit, none]
    rfl
  case mpr =>
    intro last
    by_contra some
    have := small _ (fits.qubits _ (Instruction.lowestQubit_mem some))
    omega

section Order

variable (h : d.Serial seq) (plain : ∀ n i, d.instruction? n = some i → i.Plain)
  (small : ∀ q, d.hasWire (.qubit q) → q < UInt32.size - 1)
include h plain small

-- Different operations of a layer have different lowest qubits, or both are barriers on no qubits.
theorem Serial.eq_of_lowest {layer : List Nat} (hl : layer ∈ d.layers) (hn : n ∈ layer)
    (hm : m ∈ layer) (eq : lowestOf (d.instruction? n) = lowestOf (d.instruction? m)) :
    d.instruction? n = d.instruction? m := by
  have ⟨i, hi⟩ := Option.isSome_iff_exists.mp (isSome_of_mem_layers hl hn)
  have ⟨j, hj⟩ := Option.isSome_iff_exists.mp (isSome_of_mem_layers hl hm)
  have eq : i.lowestQubit = j.lowestQubit := by simpa [lowestOf, hi, hj] using eq
  have fits := (h.fits (n, i) ((h.mem_iff n i).mpr hi)).toFits
  have fits' := (h.fits (m, j) ((h.mem_iff m j).mpr hj)).toFits
  have none_iff : i.qubits = [] ↔ j.qubits = [] := by
    rw [fits.qubits_eq_nil_iff small, fits'.qubits_eq_nil_iff small, eq]
  by_cases none : i.qubits = []
  case pos =>
    rw [hi, hj, (plain n i hi).eq_barrier fits.proper none,
      (plain m j hj).eq_barrier fits'.proper (none_iff.mp none)]
  case neg =>
    have low := Instruction.lowestQubit_mem none
    have low' := Instruction.lowestQubit_mem (mt none_iff.mpr none)
    have hw : .qubit i.lowestQubit ∈ i.wires := List.mem_append_left _ (List.mem_map_of_mem low)
    have hw' : .qubit i.lowestQubit ∈ j.wires :=
      List.mem_append_left _ (List.mem_map_of_mem (eq ▸ low'))
    rw [h.eq_of_mem_layer hl hn hm hi hj hw hw']

-- The layers of a program do not depend on the order of what is apart.
theorem Serial.map_layers_eq (h' : d'.Serial seq')
    (order : Reorders d.instructions d'.instructions) :
    d.layers.map (·.map d.instruction?) = d'.layers.map (·.map d'.instruction?) := by
  have ⟨δ, depths⟩ := h.tied.exists_depths
  have ⟨δ', depths'⟩ := h'.tied.exists_depths
  have perm : (d.pending.map d.entry).Perm (d'.pending.map d'.entry) := by
    rw [depths.map_entry_pending h, depths'.map_entry_pending h']
    exact (order.perm_timed _).map _
  have len : d.pending.length = d'.pending.length := by simpa using perm.length_eq
  rw [Dag.layers, Dag.layers, ← len]
  exact (depths.due h.tied).map_layersFrom_eq (depths'.due h'.tied) perm fun layer hl n hn m hm =>
    h.eq_of_lowest plain small hl hn hm

end Order

end Dag

end CircuitRouting
