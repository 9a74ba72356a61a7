import CircuitRouting.Proofs.Dag.Splice

/-!
# Serial orders

A sequence of operations is a serial order of a circuit graph if each wire leads through its members
in the order of the sequence. Edits of the graph are edits of the sequence: an operation is appended
to it, or gives way to others in its place. Operations that share no wire may change places.
-/

namespace CircuitRouting.Dag

variable {d d' : Dag} {n m : Nat} {w : Wire} {i j : Instruction} {seq l r : List (Nat × Instruction)}
  {x y : Nat × Instruction}

@[simp]
theorem onWire_nil : onWire w [] = [] :=
  rfl

@[simp]
theorem onWire_append : onWire w (l ++ r) = onWire w l ++ onWire w r := by
  simp [onWire]

theorem onWire_cons : onWire w (x :: r) = (if w ∈ x.2.wires then [x.1] else []) ++ onWire w r := by
  by_cases h : w ∈ x.2.wires
  case pos => simp [onWire, h]
  case neg => simp [onWire, h]

theorem mem_onWire : n ∈ onWire w seq ↔ ∃ i, (n, i) ∈ seq ∧ w ∈ i.wires := by
  simp [onWire]

theorem onWire_flatMap (f : Nat × Instruction → List (Nat × Instruction)) :
    onWire w (seq.flatMap f) = seq.flatMap fun x => onWire w (f x) := by
  simp [onWire, List.filter_flatMap, List.map_flatMap]

theorem onWire_eq_nil (h : ∀ x ∈ seq, w ∉ x.2.wires) : onWire w seq = [] := by
  simpa [onWire] using h

theorem onWire_sublist : (onWire w seq).Sublist (seq.map Prod.fst) :=
  List.filter_sublist.map _

-- An instruction that is valid and does not repeat a classical bit either.
structure FitsOnce (d : Dag) (i : Instruction) : Prop extends d.Fits i where
  once : i.clbits.Nodup

namespace FitsOnce

theorem wires_nodup (h : d.FitsOnce i) : i.wires.Nodup :=
  h.toFits.wires_nodup h.once

theorem congr (h : d.FitsOnce i) (wires : ∀ w, d.hasWire w → d'.hasWire w) : d'.FitsOnce i :=
  ⟨h.toFits.congr wires, h.once⟩

end FitsOnce

-- A list of all operations of a graph, each with its number.
structure Lists (d : Dag) (seq : List (Nat × Instruction)) : Prop where
  nodup : (seq.map Prod.fst).Nodup
  mem_iff : ∀ n i, (n, i) ∈ seq ↔ d.instruction? n = some i

namespace Lists

variable {fresh : List (Nat × Instruction)}

theorem perm {seq' : List (Nat × Instruction)} (h : d.Lists seq) (h' : d.Lists seq') :
    seq.Perm seq' := by
  refine (List.perm_ext_iff_of_nodup (.of_map _ h.nodup) (.of_map _ h'.nodup)).mpr fun x => ?_
  rw [h.mem_iff, h'.mem_iff]

-- The nodes on either side of an operation are not its own.
theorem ne_of_split (h : d.Lists (l ++ (n, i) :: r)) : ∀ x ∈ l ++ r, x.1 ≠ n := by
  have nodup := h.nodup
  rw [List.map_append, List.map_cons, List.nodup_middle, List.nodup_cons, ← List.map_append] at nodup
  have out : n ∉ (l ++ r).map Prod.fst := nodup.1
  intro x hx eq
  exact out (eq ▸ List.mem_map_of_mem hx)

-- The number of an old operation is not given to a new one.
theorem notMem_fresh (h : d.Lists (l ++ (n, i) :: r)) (rep : d.Replaced n fresh d') :
    ∀ x ∈ l ++ r, x.1 ∉ fresh.map Prod.fst := by
  intro x hx mem
  have listed : x ∈ l ++ (n, i) :: r := by
    simp only [List.mem_append, List.mem_cons] at hx ⊢
    tauto
  have op := (h.mem_iff x.1 x.2).mp listed
  exact rep.notMem (isSome_of_instruction? (by simp [op])) (h.ne_of_split x hx) mem

-- The new operations are listed where the old one was.
theorem replace (h : d.Lists (l ++ (n, i) :: r)) (rep : d.Replaced n fresh d') :
    d'.Lists (l ++ fresh ++ r) := by
  have ne := h.ne_of_split
  have old := h.notMem_fresh rep
  have rest := h.nodup.sublist ((List.sublist_cons_self (n, i) r).append_left l |>.map Prod.fst)
  refine ⟨?_, fun m j => ?_⟩
  case refine_1 =>
    rw [List.append_assoc]
    refine ((List.perm_append_comm_assoc l fresh r).map Prod.fst).nodup_iff.mpr ?_
    rw [List.map_append]
    refine List.nodup_append.mpr ⟨rep.nodup, rest, ?_⟩
    rintro a ha b hb rfl
    have ⟨x, hx, eq⟩ := List.mem_map.mp hb
    exact old x hx (eq ▸ ha)
  case refine_2 =>
    rw [instruction?_eq_some_iff]
    by_cases hm : m ∈ fresh.map Prod.fst
    case pos =>
      obtain ⟨x, hx, eq⟩ := List.mem_map.mp hm
      have notOld : (m, j) ∉ l ∧ (m, j) ∉ r := by
        constructor <;> exact fun mem => old (m, j) (by simp [mem]) hm
      have node := rep.new x hx
      simp only [List.mem_append, notOld, or_false, false_or]
      subst eq
      rw [node, Option.some.injEq, Node.op.injEq]
      constructor
      case mp => exact fun mem => congrArg Prod.snd (List.inj_on_of_nodup_map rep.nodup hx mem rfl)
      case mpr => exact fun eq => eq ▸ hx
    case neg =>
      have notFresh : (m, j) ∉ fresh := fun mem => hm (List.mem_map_of_mem mem)
      rw [rep.old m hm]
      simp only [List.mem_append, notFresh, or_false]
      by_cases eq : m = n
      case pos =>
        simp only [eq, if_true, reduceCtorEq, iff_false, not_or]
        constructor <;> exact fun mem => ne (n, j) (by simp [mem]) rfl
      case neg =>
        rw [if_neg eq, ← instruction?_eq_some_iff, ← h.mem_iff]
        simp [eq]

-- On a wire of the old operation, or on any other, the new ones stand where it stood.
theorem onWire_replace (h : d.Lists (l ++ (n, i) :: r))
    (allowed : ∀ x ∈ fresh, w ∈ x.2.wires → w ∈ i.wires) :
    replaceAt n (onWire w fresh) (onWire w (l ++ (n, i) :: r)) = onWire w (l ++ fresh ++ r) := by
  have notMem : ∀ s, (∀ x ∈ s, x ∈ l ++ r) → n ∉ onWire w s := by
    intro s sub mem
    have ⟨j, hj, _⟩ := mem_onWire.mp mem
    exact h.ne_of_split (n, j) (sub _ hj) rfl
  have left := notMem l (by simp +contextual)
  have right := notMem r (by simp +contextual)
  simp only [onWire_append, onWire_cons]
  split
  case isTrue => exact replaceAt_append_cons left right
  case isFalse hw =>
    have empty : onWire w fresh = [] := onWire_eq_nil fun x hx hw' => hw (allowed x hx hw')
    rw [replaceAt_of_notMem (by simp [left, right]), empty]
    simp

end Lists

structure Serial (d : Dag) (seq : List (Nat × Instruction)) : Prop where
  laid : d.Laid (onWire · seq)
  nodup : (seq.map Prod.fst).Nodup
  mem_iff : ∀ n i, (n, i) ∈ seq ↔ d.instruction? n = some i
  fits : ∀ x ∈ seq, d.FitsOnce x.2

namespace Serial

theorem empty (level : Level) : Serial { level } [] where
  laid := by
    refine ⟨.empty, ?_, ?_, ?_, ?_, ?_, ?_, ?_, ?_, ?_, ?_⟩ <;> simp [node?, Graph.node?]
  nodup := .nil
  mem_iff := by simp [instruction?, Graph.instruction?, Graph.node?]
  fits := by simp

theorem lists (h : d.Serial seq) : d.Lists seq :=
  ⟨h.nodup, h.mem_iff⟩

theorem hasWire (h : d.Serial seq) (hx : x ∈ seq) (hw : w ∈ x.2.wires) : d.hasWire w :=
  (h.fits x hx).hasWire hw

theorem addWire (h : d.Serial seq) (w : Wire) : (d.addWire w).Serial seq := by
  by_cases hw : d.hasWire w
  case pos =>
    rw [addWire_of_hasWire hw]
    exact h
  case neg =>
    have empty : onWire w seq = [] := onWire_eq_nil fun x hx mem => hw (h.hasWire hx mem)
    refine ⟨h.laid.addWire hw empty, h.nodup, fun n i => ?_, fun x hx => ?_⟩
    case refine_1 => rw [h.mem_iff, instruction?_addWire h.laid.tidy]
    case refine_2 => exact (h.fits x hx).congr fun w' hw' => hasWire_addWire.mpr (.inl hw')

theorem append (h : d.Serial seq) (fits : d.FitsOnce i) :
    ∃ d', d.append i = (.ok d.graph.nextNumber, d') ∧ d.Alike d' ∧
      d'.Serial (seq ++ [(d.graph.nextNumber, i)]) := by
  obtain ⟨d', eq, alike, node, laid⟩ := h.laid.append fits.toFits fits.once
  have fresh : d.instruction? d.graph.nextNumber = none := by
    rw [instruction?_eq, node?, h.laid.tidy.node?_nextNumber]
    rfl
  have new : d.graph.nextNumber ∉ seq.map Prod.fst := by
    intro mem
    obtain ⟨x, hx, eq⟩ := List.mem_map.mp mem
    have := (h.mem_iff x.1 x.2).mp hx
    rw [eq, fresh] at this
    contradiction
  refine ⟨d', eq, alike, laid.congr fun e _ => ?_, ?_, fun m j => ?_, fun x hx => ?_⟩
  case refine_1 =>
    rw [onWire_append, onWire_cons]
    split <;> simp
  case refine_2 =>
    rw [List.map_append, List.nodup_append]
    refine ⟨h.nodup, by simp, ?_⟩
    rintro a ha b hb rfl
    cases List.mem_singleton.mp hb
    exact new ha
  case refine_3 =>
    rw [List.mem_append, List.mem_singleton, h.mem_iff, Prod.mk.injEq, instruction?_eq (d := d'),
      node]
    by_cases hm : m = d.graph.nextNumber
    case pos => simp [hm, fresh, Node.instruction?, eq_comm]
    case neg => simp [hm, instruction?_eq]
  case refine_4 =>
    cases List.mem_append.mp hx
    case inl hx => exact (h.fits x hx).congr fun w => (alike.hasWire w).mpr
    case inr hx =>
      cases List.mem_singleton.mp hx
      exact fits.congr fun w => (alike.hasWire w).mpr

-- What the edits of an operation need to know of it.
theorem wires_of_mem (h : d.Serial seq) (hx : x ∈ seq) :
    x.2.wires.Nodup ∧ (∀ w ∈ x.2.wires, d.hasWire w) ∧
      ∀ e ∈ d.wires, x.1 ∈ onWire e.wire seq ↔ e.wire ∈ x.2.wires := by
  refine ⟨(h.fits x hx).wires_nodup, fun w hw => h.hasWire hx hw, fun e _ => ?_⟩
  rw [mem_onWire]
  constructor
  case mp =>
    intro ⟨i, hi, mem⟩
    have := (h.mem_iff _ _).mp hi
    rw [(h.mem_iff x.1 x.2).mp hx, Option.some.injEq] at this
    exact this ▸ mem
  case mpr => exact fun mem => ⟨x.2, hx, mem⟩

theorem substitute (h : d.Serial (l ++ (n, i) :: r)) (is : List Instruction)
    (fits : ∀ j ∈ is, d.FitsOnce j) (allowed : ∀ j ∈ is, ∀ w ∈ j.wires, w ∈ i.wires) :
    ∃ fresh d', d.substitute n is = .ok (fresh.map Prod.fst, d') ∧ fresh.map Prod.snd = is ∧
      d.Replaced n fresh d' ∧ d'.Serial (l ++ fresh ++ r) := by
  have mem : (n, i) ∈ l ++ (n, i) :: r := by simp
  have op := (h.mem_iff n i).mp mem
  obtain ⟨nodup, exist, on⟩ := h.wires_of_mem mem
  obtain ⟨fresh, d', eq, snd, rep, laid⟩ := h.laid.substitute op nodup exist on
    (fun j hj => ⟨(fits j hj).toFits, (fits j hj).once⟩) allowed
  have lists := h.lists.replace rep
  refine ⟨fresh, d', eq, snd, rep, laid.congr fun e _ => ?_, lists.nodup, lists.mem_iff, fun x hx => ?_⟩
  case refine_1 =>
    refine h.lists.onWire_replace fun x hx => allowed x.2 (snd ▸ List.mem_map_of_mem hx) _
  case refine_2 =>
    have alike : ∀ w, d.hasWire w → d'.hasWire w := fun w => (rep.alike.hasWire w).mpr
    simp only [List.mem_append] at hx
    rcases hx with (hx | hx) | hx
    · exact (h.fits x (by simp [hx])).congr alike
    · exact (fits x.2 (snd ▸ List.mem_map_of_mem hx)).congr alike
    · exact (h.fits x (by simp [hx])).congr alike

theorem removeOp (h : d.Serial (l ++ (n, i) :: r)) :
    ∃ d', d.removeOp n = .ok (i, d') ∧ d.Replaced n [] d' ∧ d'.Serial (l ++ r) := by
  have mem : (n, i) ∈ l ++ (n, i) :: r := by simp
  have ⟨nodup, exist, on⟩ := h.wires_of_mem mem
  have ⟨d', eq, eq'⟩ := h.laid.removeOp ((h.mem_iff n i).mp mem) nodup exist on
  have ⟨fresh, d'', eq'', snd, rep, serial⟩ := h.substitute [] (by simp) (by simp)
  cases List.map_eq_nil_iff.mp snd
  cases eq'.symm.trans eq''
  exact ⟨d', eq, rep, by simpa using serial⟩

-- Only the order on each wire matters.
theorem rearrange {seq' : List (Nat × Instruction)} (h : d.Serial seq) (p : seq.Perm seq')
    (same : ∀ w, onWire w seq = onWire w seq') : d.Serial seq' where
  laid := h.laid.congr fun e _ => same e.wire
  nodup := (p.map _).nodup_iff.mp h.nodup
  mem_iff n i := p.mem_iff.symm.trans (h.mem_iff n i)
  fits x hx := h.fits x (p.mem_iff.mpr hx)

section Unique

variable {seq' : List (Nat × Instruction)}

-- The graph determines the order on each wire.
theorem onWire_eq (h : d.Serial seq) (h' : d.Serial seq') (w : Wire) :
    onWire w seq = onWire w seq' := by
  by_cases hw : d.hasWire w
  case pos =>
    have ⟨e, he, eq⟩ := hasWire_iff.mp hw
    subst eq
    have same := eq_of_mem_hops_iff (h.laid.track_nodup he) (h'.laid.track_nodup he) fun x y =>
      (h.laid.mem_edges_iff he).symm.trans (h'.laid.mem_edges_iff he)
    exact List.append_cancel_right same
  case neg =>
    rw [onWire_eq_nil fun x hx mem => hw (h.hasWire hx mem),
      onWire_eq_nil fun x hx mem => hw (h'.hasWire hx mem)]

theorem perm (h : d.Serial seq) (h' : d.Serial seq') : seq.Perm seq' :=
  h.lists.perm h'.lists

end Unique

-- An order of the operations along which all edges lead forward is serial.
theorem of_forward {seq' : List (Nat × Instruction)} (h : d.Serial seq) (p : seq.Perm seq')
    (forward : ∀ u x v, seq' = u ++ x :: v → ∀ e ∈ d.graph.edges, e.target = x.1 →
      (d.instruction? e.source).isSome → e.source ∈ u.map Prod.fst) : d.Serial seq' := by
  have nodup : (seq'.map Prod.fst).Nodup := (p.map _).nodup_iff.mp h.nodup
  refine h.rearrange p fun w => ?_
  have perm : (onWire w seq).Perm (onWire w seq') := (p.filter _).map _
  have nodup_w : (onWire w seq').Nodup := nodup.sublist onWire_sublist
  refine eq_of_hops_forward nodup_w perm fun a b hop => ?_
  have ⟨ha, hb⟩ := mem_of_mem_hops hop
  have ⟨i, hi, hw⟩ := mem_onWire.mp (perm.mem_iff.mp hb)
  have ⟨j, hj, hwj⟩ := mem_onWire.mp ha
  have ⟨e, he, eq⟩ := hasWire_iff.mp (h.hasWire hj hwj)
  subst eq
  have edge : ⟨a, b, e.wire⟩ ∈ d.graph.edges := by
    rw [h.laid.mem_edges_iff he, Laid.hops_track]
    exact List.mem_append_left _ (hops_subset_cons hop)
  have ⟨u, v, split⟩ := List.append_of_mem hi
  have before := forward u (b, i) v split _ edge rfl (by simp [(h.mem_iff a j).mp hj])
  have ⟨x, hx, eq⟩ := List.mem_map.mp before
  have same : x = (a, j) := by
    have := (h.mem_iff x.1 x.2).mp (p.mem_iff.mpr (by simp [split, hx]))
    rw [eq, (h.mem_iff a j).mp hj, Option.some.injEq] at this
    exact Prod.ext eq this.symm
  have left : a ∈ onWire e.wire u := mem_onWire.mpr ⟨j, same ▸ hx, hwj⟩
  have split_w : onWire e.wire seq' = onWire e.wire u ++ b :: onWire e.wire v := by
    simp [split, onWire_cons, hw]
  rw [split_w] at nodup_w ⊢
  exact idxOf_lt_idxOf_of_mem_left nodup_w left

end Serial

end CircuitRouting.Dag
