import CircuitRouting.Proofs.Cancellation.Stacks
import CircuitRouting.Proofs.Dag.Reworked
import CircuitRouting.Proofs.Pass.Cancellation
import Mathlib.Logic.Relation

/-!
# The normal form of cancellation

Two controlled NOTs that cancel in a graph are dropped from the program of its operations; a graph
without such a pair has nothing to drop. Since a program has one set of stacks only, all ways to remove
pairs, one at a time until none is left, end with the same instructions on every wire. The rounds of
the pass are such a way: the pairs of a round share no node, and none of them is lost when another is
removed.
-/

namespace CircuitRouting

open Stacks

theorem mem_hops_filter {α : Type} {p : α → Bool} {a b : α} {l : List α} (h : (a, b) ∈ hops l)
    (ha : p a) (hb : p b) : (a, b) ∈ hops (l.filter p) := by
  have ⟨u, v, eq⟩ := mem_hops_iff.mp h
  exact mem_hops_iff.mpr ⟨u.filter p, v.filter p, by simp [eq, List.filter_append, ha, hb]⟩

namespace Dag

variable {d d' : Dag} {seq l mid r : List (Nat × Instruction)} {n m a b c t : Nat} {i j : Instruction}
  {w : Wire}

-- Two controlled NOTs on the same control and target, the second right after the first on both.
def Cancellable (d : Dag) (n m : Nat) : Prop :=
  ∃ i j c t, d.instruction? n = some i ∧ d.instruction? m = some j ∧ i.isCx ∧ j.isCx ∧
    i.qubits = [c, t] ∧ j.qubits = [c, t] ∧
    d.successor? n (.qubit c) = some m ∧ d.successor? n (.qubit t) = some m

-- A pair is removed, one of its two nodes first.
inductive Cancels (d d' : Dag) : Prop
  | intro {d₁ : Dag} {n m : Nat} {i j : Instruction} : d.Cancellable n m ∨ d.Cancellable m n →
    d.removeOp n = .ok (i, d₁) → d₁.removeOp m = .ok (j, d') → Cancels d d'

def Normal (d : Dag) : Prop :=
  ∀ n m, ¬d.Cancellable n m

section Between

-- What comes right after another on a wire comes after it in the order.
theorem exists_between (h : (n, m) ∈ hops (onWire w seq)) :
    ∃ l i mid j r, seq = l ++ (n, i) :: (mid ++ (m, j) :: r) := by
  have ⟨u, v, eq⟩ := mem_hops_iff.mp h
  obtain ⟨_, _, filtered, _, tail⟩ := List.map_eq_append_iff.mp eq
  obtain ⟨x, _, rfl, rfl, tail'⟩ := List.map_eq_cons_iff.mp tail
  obtain ⟨y, _, rfl, rfl, _⟩ := List.map_eq_cons_iff.mp tail'
  obtain ⟨l, _, rfl, _, rest⟩ := List.filter_eq_append_iff.mp filtered
  obtain ⟨l', _, rfl, _, _, rest'⟩ := List.filter_eq_cons_iff.mp rest
  obtain ⟨mid, r, rfl, _⟩ := List.filter_eq_cons_iff.mp rest'
  exact ⟨l ++ l', x.2, mid, y.2, r, by simp⟩

theorem mem_hops_of_apart (hi : w ∈ i.wires) (hj : w ∈ j.wires) (apart : ∀ y ∈ mid, w ∉ y.2.wires) :
    (n, m) ∈ hops (onWire w (l ++ (n, i) :: (mid ++ (m, j) :: r))) := by
  refine mem_hops_iff.mpr ⟨onWire w l, onWire w r, ?_⟩
  simp [onWire_cons, hi, hj, onWire_eq_nil apart]

theorem apart_of_mem_hops (nodup : ((l ++ (n, i) :: (mid ++ (m, j) :: r)).map Prod.fst).Nodup)
    (hi : w ∈ i.wires) (hop : (n, m) ∈ hops (onWire w (l ++ (n, i) :: (mid ++ (m, j) :: r)))) :
    ∀ y ∈ mid, w ∉ y.2.wires := by
  have nodup_w := nodup.sublist (onWire_sublist (w := w))
  cases between : onWire w mid
  case nil =>
    intro y hy hw
    have mem : y.1 ∈ onWire w mid := mem_onWire.mpr ⟨y.2, hy, hw⟩
    simp [between] at mem
  case cons k ks =>
    -- The first of those between comes right after the node instead.
    have first : (n, k) ∈ hops (onWire w (l ++ (n, i) :: (mid ++ (m, j) :: r))) := by
      refine mem_hops_iff.mpr ⟨onWire w l, ks ++ onWire w ((m, j) :: r), ?_⟩
      simp [onWire_cons, hi, between]
    have same : m = k := hops_right_unique nodup_w hop first
    have ⟨x, hx, _⟩ := mem_onWire.mp (between ▸ List.mem_cons_self : k ∈ onWire w mid)
    simp only [List.map_append, List.map_cons, List.nodup_append, List.nodup_cons] at nodup
    exact absurd same (nodup.2.1.2.2.2 k (List.mem_map.mpr ⟨_, hx, rfl⟩) m (by simp)).symm

end Between

theorem mem_hops_onWire_filter (h : (n, m) ∈ hops (onWire w seq)) (hn : n ≠ a) (hm : m ≠ a) :
    (n, m) ∈ hops (onWire w (seq.filter (·.1 ≠ a))) := by
  rw [onWire_filter]
  exact mem_hops_filter h (by simpa using hn) (by simpa using hm)

namespace Cancelling

theorem ne (h : Cancelling seq n m i j c t) (nodup : (seq.map Prod.fst).Nodup) : m ≠ n :=
  hops_ne (nodup.sublist onWire_sublist) h.control

theorem eq_cx (h : Cancelling seq n m i j c t) (plain : ∀ x ∈ seq, x.2.Plain) :
    i = .cx c t ∧ j = .cx c t :=
  ⟨(plain _ h.first).eq_gate h.actions.1 h.qubits.1, (plain _ h.second).eq_gate h.actions.2 h.qubits.2⟩

theorem mem_hops {q : Nat} (h : Cancelling seq n m i j c t) (hq : q ∈ i.qubits) :
    (n, m) ∈ hops (onWire (.qubit q) seq) := by
  rw [h.qubits.1, List.mem_cons, List.mem_singleton] at hq
  rcases hq with rfl | rfl
  · exact h.control
  · exact h.target

-- Removing another operation brings the two no further apart.
theorem filter (h : Cancelling seq n m i j c t) (hn : n ≠ a) (hm : m ≠ a) :
    Cancelling (seq.filter (·.1 ≠ a)) n m i j c t where
  first := List.mem_filter.mpr ⟨h.first, by simpa using hn⟩
  second := List.mem_filter.mpr ⟨h.second, by simpa using hm⟩
  actions := h.actions
  qubits := h.qubits
  distinct := h.distinct
  control := mem_hops_onWire_filter h.control hn hm
  target := mem_hops_onWire_filter h.target hn hm

end Cancelling

namespace Woven

theorem cancelling (h : d.Woven seq) (pair : d.Cancellable n m) :
    ∃ i j c t, Cancelling seq n m i j c t := by
  obtain ⟨i, j, c, t, hn, hm, cx, cx', qubits, qubits', control, target⟩ := pair
  have first := (h.mem_iff n i).mpr hn
  have distinct : c ≠ t := by simpa [qubits] using h.nodup_qubits first
  have op := Option.isSome_of_mem hm
  exact ⟨i, j, c, t, first, (h.mem_iff m j).mpr hm,
    ⟨Instruction.isCx_iff.mp cx, Instruction.isCx_iff.mp cx'⟩, ⟨qubits, qubits'⟩, distinct,
    (h.successor?_eq_some_iff first (by simp [qubits]) op).mp control,
    (h.successor?_eq_some_iff first (by simp [qubits]) op).mp target⟩

theorem cancellable (h : d.Woven seq) (pair : Cancelling seq n m i j c t) : d.Cancellable n m := by
  have hm := (h.mem_iff m j).mp pair.second
  have op := Option.isSome_of_mem hm
  exact ⟨i, j, c, t, (h.mem_iff n i).mp pair.first, hm, Instruction.isCx_iff.mpr pair.actions.1,
    Instruction.isCx_iff.mpr pair.actions.2, pair.qubits.1, pair.qubits.2,
    (h.successor?_eq_some_iff pair.first (by simp [pair.qubits.1]) op).mpr pair.control,
    (h.successor?_eq_some_iff pair.first (by simp [pair.qubits.1]) op).mpr pair.target⟩

-- The operations between two that cancel share no qubit with them.
theorem exists_split (h : d.Woven seq) (plain : ∀ x ∈ seq, x.2.Plain)
    (pair : Cancelling seq n m i j c t) :
    ∃ l mid r, seq = l ++ (n, .cx c t) :: (mid ++ (m, .cx c t) :: r) ∧
      ∀ y ∈ mid, (Instruction.cx c t).Separate y.2 := by
  obtain ⟨rfl, rfl⟩ := pair.eq_cx plain
  obtain ⟨l, i, mid, j, r, rfl⟩ := exists_between pair.control
  have hi := (h.mem_iff n i).mp (by simp)
  have hj := (h.mem_iff m j).mp (by simp)
  rw [(h.mem_iff n _).mp pair.first, Option.some.injEq] at hi
  rw [(h.mem_iff m _).mp pair.second, Option.some.injEq] at hj
  subst hi hj
  refine ⟨l, mid, r, rfl, fun y hy q hq => ?_⟩
  have on : .qubit q ∈ (Instruction.cx c t).wires := List.mem_append_left _ (List.mem_map_of_mem hq)
  exact fun mem => apart_of_mem_hops h.nodup on (pair.mem_hops hq) y hy
    (List.mem_append_left _ (List.mem_map_of_mem mem))

theorem wireInstructions_qubit (h : d.Woven seq) (q : Nat) :
    d.wireInstructions (.qubit q) = ofProgram (seq.map Prod.snd) q := by
  rw [h.reads.wireInstructions_qubit, ofProgram_apply, List.filter_map]
  rfl

theorem wireInstructions_clbit (h : d.Woven seq) (eq : d.removeOp n = .ok (i, d'))
    (bare : i.clbits = []) (c : Nat) :
    d'.wireInstructions (.clbit c) = d.wireInstructions (.clbit c) := by
  rw [wireInstructions, wireInstructions, h.wireOps_clbit eq bare]
  refine List.filterMap_congr fun m hm => instruction?_removeOp eq ?_
  rintro rfl
  exact h.notMem_wireOps_clbit (instruction?_of_removeOp eq) bare c hm

-- Two operations without classical bits are removed one after the other.
theorem removeBoth (h : d.Woven seq) (hn : (n, i) ∈ seq) (hm : (m, j) ∈ seq) (ne : m ≠ n)
    (bare : i.clbits = []) (bare' : j.clbits = []) :
    ∃ d₁ d', d.removeOp n = .ok (i, d₁) ∧ d₁.removeOp m = .ok (j, d') ∧
      d'.Woven ((seq.filter (·.1 ≠ n)).filter (·.1 ≠ m)) ∧
      ∀ c, d'.wireInstructions (.clbit c) = d.wireInstructions (.clbit c) := by
  have ⟨d₁, eq⟩ := h.exists_removeOp hn bare
  have h₁ := h.removeOp eq bare
  have ⟨d', eq'⟩ := h₁.exists_removeOp (List.mem_filter.mpr ⟨hm, by simpa using ne⟩) bare'
  exact ⟨d₁, d', eq, eq', h₁.removeOp eq' bare', fun c =>
    (h₁.wireInstructions_clbit eq' bare' c).trans (h.wireInstructions_clbit eq bare c)⟩

-- Without the pair, the program is what dropping it leaves.
theorem drops (h : d.Woven seq) (plain : ∀ x ∈ seq, x.2.Plain) (pair : d.Cancellable n m) :
    ∃ c t, (n, .cx c t) ∈ seq ∧ (m, .cx c t) ∈ seq ∧ m ≠ n ∧
      Drops (seq.map Prod.snd) (((seq.filter (·.1 ≠ n)).filter (·.1 ≠ m)).map Prod.snd) := by
  obtain ⟨i, j, c, t, pair⟩ := h.cancelling pair
  have ne := pair.ne h.nodup
  obtain ⟨l, mid, r, rfl, apart⟩ := h.exists_split plain pair
  refine ⟨c, t, by simp, by simp, ne, ?_⟩
  have rest : (((l ++ mid) ++ (m, .cx c t) :: r).map Prod.fst).Nodup := by
    refine h.nodup.sublist (List.Sublist.map _ ?_)
    simp
  rw [filter_ne_append_cons h.nodup, ← List.append_assoc, filter_ne_append_cons rest]
  simp only [List.map_append, List.map_cons, List.append_assoc]
  exact .intro _ _ _ pair.distinct (List.forall_mem_map.mpr apart)

-- Which of the two goes first does not matter.
theorem drops_either (h : d.Woven seq) (plain : ∀ x ∈ seq, x.2.Plain)
    (pair : d.Cancellable n m ∨ d.Cancellable m n) :
    ∃ c t, (n, .cx c t) ∈ seq ∧ (m, .cx c t) ∈ seq ∧ m ≠ n ∧
      Drops (seq.map Prod.snd) (((seq.filter (·.1 ≠ n)).filter (·.1 ≠ m)).map Prod.snd) := by
  cases pair
  case inl pair => exact h.drops plain pair
  case inr pair =>
    have ⟨c, t, hm, hn, ne, drops⟩ := h.drops plain pair
    exact ⟨c, t, hn, hm, ne.symm, List.filter_comm _ _ seq ▸ drops⟩

-- Removing a pair drops it from the program and leaves the classical wires alone.
theorem of_cancels (h : d.Woven seq) (plain : ∀ x ∈ seq, x.2.Plain) (step : Cancels d d') :
    ∃ seq', d'.Woven seq' ∧ (∀ x ∈ seq', x ∈ seq) ∧ Drops (seq.map Prod.snd) (seq'.map Prod.snd) ∧
      ∀ c, d'.wireInstructions (.clbit c) = d.wireInstructions (.clbit c) := by
  cases step
  case intro pair eq eq' =>
    obtain ⟨c, t, hn, hm, ne, drops⟩ := h.drops_either plain pair
    obtain ⟨_, _, eq₁, eq₂, h', classical⟩ := h.removeBoth hn hm ne rfl rfl
    cases eq.symm.trans eq₁
    cases eq'.symm.trans eq₂
    exact ⟨_, h', fun x hx => List.mem_of_mem_filter (List.mem_of_mem_filter hx), drops, classical⟩

-- The stacks of the program do not change, however many pairs are removed.
theorem of_cancels_all (h : d.Woven seq) (plain : ∀ x ∈ seq, x.2.Plain)
    (steps : Relation.ReflTransGen Cancels d d') :
    ∃ seq', d'.Woven seq' ∧ (∀ x ∈ seq', x ∈ seq) ∧
      reduced (seq.map Prod.snd) = reduced (seq'.map Prod.snd) ∧
      ∀ c, d'.wireInstructions (.clbit c) = d.wireInstructions (.clbit c) := by
  induction steps
  case refl => exact ⟨seq, h, fun _ hx => hx, rfl, fun _ => rfl⟩
  case tail _ step hi =>
    have ⟨seq₁, h₁, sub, same, classical⟩ := hi
    have ⟨seq', h', sub', drops, classical'⟩ := h₁.of_cancels (fun x hx => plain x (sub x hx)) step
    exact ⟨seq', h', fun x hx => sub x (sub' x hx), same.trans drops.reduced_eq, fun c =>
      (classical' c).trans (classical c)⟩

-- Without a pair there is nothing to drop.
theorem not_drops (h : d.Woven seq) (normal : d.Normal) (is : List Instruction) :
    ¬Drops (seq.map Prod.snd) is := by
  intro drops
  generalize eq : seq.map Prod.snd = program at drops
  cases drops
  case intro c t l mid r ne apart =>
    obtain ⟨l, _, rfl, rfl, tail⟩ := List.map_eq_append_iff.mp eq
    obtain ⟨⟨n, _⟩, _, rfl, rfl, tail'⟩ := List.map_eq_cons_iff.mp tail
    obtain ⟨mid, _, rfl, rfl, tail''⟩ := List.map_eq_append_iff.mp tail'
    obtain ⟨⟨m, j⟩, r, rfl, second, rfl⟩ := List.map_eq_cons_iff.mp tail''
    obtain rfl : j = .cx c t := second
    have hop : ∀ q ∈ [c, t], (n, m) ∈ hops (onWire (.qubit q)
        (l ++ (n, .cx c t) :: (mid ++ (m, .cx c t) :: r))) := by
      intro q hq
      have on : .qubit q ∈ (Instruction.cx c t).wires := List.mem_append_left _ (List.mem_map_of_mem hq)
      refine mem_hops_of_apart on on fun y hy mem => ?_
      exact apart y.2 (List.mem_map_of_mem hy) q hq (by simpa [Instruction.wires] using mem)
    have pair : Cancelling _ n m (.cx c t) (.cx c t) c t :=
      ⟨by simp, by simp, ⟨rfl, rfl⟩, ⟨rfl, rfl⟩, ne, hop c (by simp), hop t (by simp)⟩
    exact normal n m (h.cancellable pair)

-- The graphs without a pair all have the stacks of the program on their qubits.
theorem wireInstructions_of_normal (h : d.Woven seq) (plain : ∀ x ∈ seq, x.2.Plain)
    (steps : Relation.ReflTransGen Cancels d d') (normal : d'.Normal) :
    (∀ q, d'.wireInstructions (.qubit q) = reduced (seq.map Prod.snd) q) ∧
      ∀ c, d'.wireInstructions (.clbit c) = d.wireInstructions (.clbit c) := by
  have ⟨seq', h', _, same, classical⟩ := h.of_cancels_all plain steps
  refine ⟨fun q => ?_, classical⟩
  rw [h'.wireInstructions_qubit, same, reduced_eq_ofProgram (h'.not_drops normal)]

-- The pairs of a round are removed one after the other.
theorem removePairs {pairs : List (Nat × Nat)} (h : d.Woven seq) (plain : ∀ x ∈ seq, x.2.Plain)
    (nodup : (pairs.flatMap fun p => [p.1, p.2]).Nodup)
    (all : ∀ p ∈ pairs, ∃ i j c t, Cancelling seq p.1 p.2 i j c t) :
    ∃ d' seq', reviseAll (removals pairs) d = (.ok (), d') ∧ Relation.ReflTransGen Cancels d d' ∧
      d'.Woven seq' ∧ (∀ x ∈ seq', x ∈ seq) ∧ seq'.length + pairs.length ≤ seq.length := by
  induction pairs generalizing d seq
  case nil => exact ⟨d, seq, rfl, .refl, h, fun _ hx => hx, by simp⟩
  case cons p pairs hi =>
    obtain ⟨n, m⟩ := p
    have ⟨here, others⟩ := List.forall_mem_cons.mp all
    obtain ⟨i, j, c, t, pair⟩ : ∃ i j c t, Cancelling seq n m i j c t := here
    have cancellable := h.cancellable pair
    obtain ⟨rfl, rfl⟩ := pair.eq_cx plain
    rw [List.flatMap_cons, List.nodup_append] at nodup
    obtain ⟨_, rest, disjoint⟩ := nodup
    obtain ⟨d₁, d₂, eq₁, eq₂, h₂, _⟩ := h.removeBoth pair.first pair.second (pair.ne h.nodup) rfl rfl
    have part : ∀ x ∈ (seq.filter (·.1 ≠ n)).filter (·.1 ≠ m), x ∈ seq := fun x hx =>
      List.mem_of_mem_filter (List.mem_of_mem_filter hx)
    have others₂ : ∀ p ∈ pairs, ∃ i j c t,
        Cancelling ((seq.filter (·.1 ≠ n)).filter (·.1 ≠ m)) p.1 p.2 i j c t := by
      intro p hp
      obtain ⟨i, j, c, t, pair⟩ := others p hp
      have away : ∀ a ∈ [n, m], p.1 ≠ a ∧ p.2 ≠ a := fun a ha =>
        ⟨(disjoint a ha p.1 (List.mem_flatMap.mpr ⟨p, hp, by simp⟩)).symm,
          (disjoint a ha p.2 (List.mem_flatMap.mpr ⟨p, hp, by simp⟩)).symm⟩
      have first := away n (by simp)
      have second := away m (by simp)
      exact ⟨i, j, c, t, (pair.filter first.1 first.2).filter second.1 second.2⟩
    obtain ⟨d', seq', eq, steps, h', part', len⟩ :=
      hi h₂ (fun x hx => plain x (part x hx)) rest others₂
    refine ⟨d', seq', ?_, .head (.intro (.inl cancellable) eq₁ eq₂) steps, h',
      fun x hx => part x (part' x hx), ?_⟩
    case refine_1 =>
      have removed : d.revise (.remove n) = .ok d₁ := by simp [revise, eq₁, Except.map]
      have removed' : d₁.revise (.remove m) = .ok d₂ := by simp [revise, eq₂, Except.map]
      rw [removals] at eq ⊢
      simp only [List.flatMap_cons, List.cons_append, List.nil_append, reviseAll, removed, removed', eq]
    case refine_2 =>
      have fewer : (seq.filter (·.1 ≠ n)).length < seq.length :=
        List.length_filter_lt_length_iff_exists.mpr ⟨_, pair.first, by simp⟩
      have still := List.length_filter_le (·.1 ≠ m) (seq.filter (·.1 ≠ n))
      rw [List.length_cons]
      omega

end Woven

end Dag

namespace Wiring

variable {x : Wiring} {ops : List (Nat × Instruction)} {y : Nat × Instruction}

-- The first controlled NOT with a partner is in a pair.
theorem partner?_eq_none (h : x.cancellingPairs [] ops = []) (hy : y ∈ ops) :
    x.partner? y.1 y.2 = none := by
  induction ops
  case nil => simp at hy
  case cons z ops hi =>
    simp only [cancellingPairs, List.contains_nil, Bool.false_eq_true, if_false] at h
    split at h
    case h_2 => simp at h
    case h_1 none =>
      cases List.mem_cons.mp hy
      case inl eq => exact eq ▸ none
      case inr hy => exact hi h hy

end Wiring

namespace Dag

variable {d d' : Dag} {seq : List (Nat × Instruction)} {n m : Nat} {i : Instruction}

theorem cancellable_of_partner? (hn : d.instruction? n = some i)
    (partner : d.wiring.partner? n i = some m) : d.Cancellable n m := by
  have ⟨c, t, j, action, qubits, control, target, found, action', qubits'⟩ :=
    Wiring.of_partner? partner
  rw [wiring, Graph.wiring_successor?] at control target
  exact ⟨i, j, c, t, hn, found, Instruction.isCx_iff.mpr action, Instruction.isCx_iff.mpr action',
    qubits, qubits', control, target⟩

theorem partner?_of_cancellable (hn : d.instruction? n = some i) (pair : d.Cancellable n m) :
    d.wiring.partner? n i = some m := by
  obtain ⟨i', j, c, t, hn', hm, cx, cx', qubits, qubits', control, target⟩ := pair
  rw [hn, Option.some.injEq] at hn'
  subst hn'
  have next : ∀ q, d.wiring.successor? n (.qubit q) = d.successor? n (.qubit q) := fun q =>
    d.graph.wiring_successor? n (.qubit q)
  have found : d.wiring.instruction? m = some j := hm
  simp [Wiring.partner?, Instruction.isCx_iff.mp cx, qubits, next, control, target, found, cx', qubits']

namespace Woven

-- The rounds end before the fuel does, since each of them removes an operation.
theorem cancelRounds {fuel : Nat} (h : d.Woven seq) (plain : ∀ x ∈ seq, x.2.Plain)
    (len : seq.length < fuel) :
    ∃ d', Dag.cancelRounds fuel d = (.ok (), d') ∧ Relation.ReflTransGen Cancels d d' ∧ d'.Normal := by
  induction fuel generalizing d seq
  case zero => contradiction
  case succ fuel hi =>
    have ops := h.perm_topologicalOps
    rw [Dag.cancelRounds]
    split
    case h_1 none =>
      refine ⟨d, rfl, .refl, fun n m pair => ?_⟩
      obtain ⟨i, j, c, t, found, _⟩ := id pair
      have listed := ops.mem_iff.mp ((h.mem_iff n i).mpr found)
      have := Wiring.partner?_eq_none none listed
      simp [partner?_of_cancellable found pair] at this
    case h_2 found =>
      have partner : ∀ {x}, x ∈ d.topologicalOps → ∀ {m}, d.wiring.partner? x.1 x.2 = some m →
          ∃ i j c t, Cancelling seq x.1 m i j c t := fun hx _ partner =>
        h.cancelling (cancellable_of_partner? ((h.mem_iff _ _).mp (ops.mem_iff.mpr hx)) partner)
      have other : ∀ x ∈ d.topologicalOps, d.wiring.partner? x.1 x.2 ≠ some x.1 := by
        intro x hx same
        obtain ⟨_, _, _, _, pair⟩ := partner hx same
        exact pair.ne h.nodup rfl
      have all : ∀ p ∈ d.wiring.cancellingPairs [] d.topologicalOps,
          ∃ i j c t, Cancelling seq p.1 p.2 i j c t := by
        intro p hp
        obtain ⟨_, _, i, hi, next⟩ := Wiring.of_mem_cancellingPairs hp
        exact partner hi next
      obtain ⟨d₁, seq₁, eq, steps, h₁, part, fewer⟩ :=
        h.removePairs plain (Wiring.nodup_cancellingPairs other) all
      have less : seq₁.length < fuel := by
        have := List.length_pos_iff.mpr found
        omega
      obtain ⟨d', eq', steps', normal⟩ := hi h₁ (fun x hx => plain x (part x hx)) less
      exact ⟨d', by simp only [eq, eq'], steps.trans steps', normal⟩

end Woven

theorem Tame.cancelCx (h : d.Tame) :
    ∃ d', d.cancelCx = (.ok (), d') ∧ Relation.ReflTransGen Cancels d d' ∧ d'.Normal := by
  have ⟨seq, woven, plain⟩ := h.exists_woven
  have ops : ∀ n ∈ seq.map Prod.fst, (d.instruction? n).isSome := by
    intro n hn
    have ⟨x, hx, eq⟩ := List.mem_map.mp hn
    exact eq ▸ Option.isSome_of_mem ((woven.mem_iff _ _).mp hx)
  have enough := h.reachable.ended.length_le_numOps woven.nodup ops
  exact woven.cancelRounds plain (Nat.lt_succ_of_le enough)

-- Graphs with the same instructions on every wire have the same normal form.
theorem Tame.wireInstructions_eq {e e' : Dag} (h : d.Tame) (he : e.Tame)
    (same : ∀ w, e.wireInstructions w = d.wireInstructions w)
    (steps : Relation.ReflTransGen Cancels d d') (normal : d'.Normal)
    (steps' : Relation.ReflTransGen Cancels e e') (normal' : e'.Normal) (w : Wire) :
    e'.wireInstructions w = d'.wireInstructions w := by
  have ⟨seq, woven, plain⟩ := h.exists_woven
  have ⟨seq', woven', plain'⟩ := he.exists_woven
  have ⟨quantum, classical⟩ := woven.wireInstructions_of_normal plain steps normal
  have ⟨quantum', classical'⟩ := woven'.wireInstructions_of_normal plain' steps' normal'
  cases w
  case clbit c => rw [classical, classical', same]
  case qubit q =>
    have lists : ofProgram (seq'.map Prod.snd) = ofProgram (seq.map Prod.snd) := by
      refine Stacks.ext fun q => ?_
      rw [← woven.wireInstructions_qubit, ← woven'.wireInstructions_qubit, same]
    rw [quantum, quantum', reduced_congr lists]

end Dag

namespace Pass

open Relation

-- The pass succeeds with the one normal form of the graph, which every graph with the same
-- instructions on its wires shares, whatever its numbers and whatever pairs are removed first.
theorem run_cancellation_normal (w : Workspace) (tame : w.dag.Tame) :
    ∃ d, cancellation.run w = (.ok (), { w with dag := d }) ∧
      ReflTransGen Dag.Cancels w.dag d ∧ d.Normal ∧
      ∀ e e' : Dag, e.Tame → (∀ v, e.wireInstructions v = w.dag.wireInstructions v) →
        ReflTransGen Dag.Cancels e e' → e'.Normal →
        ∀ v, e'.wireInstructions v = d.wireInstructions v := by
  have ⟨d, eq, steps, normal⟩ := tame.cancelCx
  refine ⟨d, by simp [cancellation, Workspace.edit, eq, Except.mapError], steps, normal, ?_⟩
  intro e e' he same steps' normal'
  exact tame.wireInstructions_eq he same steps normal steps' normal'

-- The outer pair is next to each other only when the inner one is gone; a third controlled NOT stays.
def nested : Workspace where
  dag := Dag.edited [.addQubit 0, .addQubit 1, .addQubit 2, .addClbit 0, .apply (.cx 0 1),
    .apply (.cx 1 2), .apply (.cx 1 2), .apply (.cx 0 1), .apply (.cx 0 1), .apply (.measure 1 0)]

theorem nested_tame : nested.dag.Tame :=
  Dag.tame_edited (by decide) (by decide +kernel) (by decide +kernel)

theorem run_cancellation_normal_nested :
    nested.dag.Tame ∧ ∃ d, cancellation.run nested = (.ok (), { nested with dag := d }) ∧
      ReflTransGen Dag.Cancels nested.dag d ∧ d.Normal ∧
      ∀ e e' : Dag, e.Tame → (∀ v, e.wireInstructions v = nested.dag.wireInstructions v) →
        ReflTransGen Dag.Cancels e e' → e'.Normal →
        ∀ v, e'.wireInstructions v = d.wireInstructions v :=
  ⟨nested_tame, run_cancellation_normal nested nested_tame⟩

end Pass

end CircuitRouting
