import CircuitRouting.Pass.Direction
import CircuitRouting.Proofs.Dag.Revision
import CircuitRouting.Proofs.Pass.Expansion

/-!
# What orientation turns

Orientation leaves every operation in its place, except that a controlled NOT against the direction of
its edge gives way to the gates that turn it. It fails only at a controlled NOT on two qubits that are
not joined.
-/

namespace CircuitRouting

namespace Instruction

variable (m : CouplingMap) (turn : Gate) (i : Instruction)

-- The first two qubits.
def control : Nat := i.qubits.getD 0 0

def target : Nat := i.qubits.getD 1 0

-- What orientation makes of an instruction.
def turned : List Instruction :=
  if i.isCx ∧ m.hasEdge i.control i.target = false then reversedCx turn i.control i.target else [i]

variable {m turn i}

theorem qubits_of_isCx (proper : i.Proper) (h : i.isCx) :
    i.action = .gate .cx ∧ i.qubits = [i.control, i.target] := by
  have cx : i.action = .gate .cx := by
    rw [isCx] at h
    split at h
    case h_1 eq => exact eq
    case h_2 => contradiction
  have ⟨a, b, eq⟩ := List.length_eq_two.mp (proper.arity 2 (by rw [cx]; rfl))
  exact ⟨cx, by simp [control, target, eq]⟩

theorem of_mem_reversedCx {j : Instruction} {c t : Nat} (h : j ∈ reversedCx turn c t) :
    j = .gate turn [c] ∨ j = .gate turn [t] ∨ j = .cx t c := by
  simp only [reversedCx, List.mem_cons, List.not_mem_nil, or_false] at h
  tauto

end Instruction

namespace Dag

variable {m : CouplingMap} {turn : Gate} {d d' : Dag} {seq : List (Nat × Instruction)} {n c t : Nat}
  {i : Instruction} {rest : List (Nat × Nat × Nat)}

theorem mem_cxNodes : (n, c, t) ∈ d.cxNodes ↔
    ∃ i, d.instruction? n = some i ∧ i.isCx ∧ c = i.control ∧ t = i.target := by
  simp only [cxNodes, List.mem_filterMap, Prod.exists, mem_opNodes_iff]
  constructor
  case mp =>
    rintro ⟨k, i, hi, eq⟩
    split at eq
    case isTrue cx =>
      cases eq
      exact ⟨i, hi, cx, rfl, rfl⟩
    case isFalse => contradiction
  case mpr =>
    rintro ⟨i, hi, cx, rfl, rfl⟩
    exact ⟨n, i, hi, by simp [cx, Instruction.control, Instruction.target]⟩

-- Orientation succeeds only if the qubits of all controlled NOTs are joined.
theorem coupled_of_orient (h : orient m turn rest d = (.ok (), d')) :
    ∀ x ∈ rest, m.coupled x.2.1 x.2.2 := by
  induction rest generalizing d
  case nil => simp
  case cons x rest hi =>
    have ⟨n, c, t⟩ := x
    rw [orient] at h
    rw [List.forall_mem_cons]
    split at h
    case isTrue edge => exact ⟨by simp [CouplingMap.coupled, edge], hi h⟩
    case isFalse =>
      split at h
      case isFalse => simp at h
      case isTrue edge =>
        split at h
        case h_1 => exact ⟨by simp [CouplingMap.coupled, edge], hi h⟩
        case h_2 => simp at h

-- The revision that turns a controlled NOT, if it has to be turned.
def turning? (m : CouplingMap) (turn : Gate) (x : Nat × Nat × Nat) : Option Revision :=
  if m.hasEdge x.2.1 x.2.2 then none
  else some (.replace x.1 (Instruction.reversedCx turn x.2.1 x.2.2))

theorem node_of_turning? {x : Nat × Nat × Nat} {rev : Revision}
    (h : turning? m turn x = some rev) : rev.node = x.1 := by
  rw [turning?] at h
  split at h
  case isTrue => contradiction
  case isFalse =>
    cases h
    rfl

-- On joined qubits orientation is a series of revisions, and goes on after them.
theorem orient_append (coupled : ∀ x ∈ rest, m.coupled x.2.1 x.2.2)
    (eq : reviseAll (rest.filterMap (turning? m turn)) d = (.ok (), d')) (post : List (Nat × Nat × Nat)) :
    orient m turn (rest ++ post) d = orient m turn post d' := by
  induction rest generalizing d
  case nil =>
    cases eq
    rfl
  case cons x rest hi =>
    have ⟨n, c, t⟩ := x
    have ⟨here, later⟩ := List.forall_mem_cons.mp coupled
    rw [List.filterMap_cons, turning?] at eq
    rw [List.cons_append, orient]
    cases forth : m.hasEdge c t
    case true => exact hi later (by simpa [forth] using eq)
    case false =>
      have back : m.hasEdge t c := by simpa [CouplingMap.coupled, forth] using here
      simp only [forth, Bool.false_eq_true, if_false, reviseAll, revise] at eq
      simp only [Bool.false_eq_true, if_false, back, if_true]
      cases found : d.substitute n (Instruction.reversedCx turn c t)
      case error => simp [found, Except.map] at eq
      case ok r => exact hi later (by simpa [found, Except.map] using eq)

theorem fits_turning (one : turn.arity = 1) (fits : d.Fits i) (cx : i.isCx) :
    Revision.Fits d (.replace n (Instruction.reversedCx turn i.control i.target)) i := by
  have ⟨_, qubits⟩ := Instruction.qubits_of_isCx fits.proper cx
  have nodup := fits.nodup
  have exist := fits.qubits
  rw [qubits] at nodup exist
  have ne : i.control ≠ i.target := by simpa using nodup
  have hc := exist i.control (by simp)
  have ht := exist i.target (by simp)
  have control : i.control ∈ i.qubits := by simp [qubits]
  have target : i.target ∈ i.qubits := by simp [qubits]
  intro j hj
  rcases Instruction.of_mem_reversedCx hj with rfl | rfl | rfl
  · refine ⟨fitsOnce_gate (by simp [one]) (by simp) (by simpa using hc), ?_⟩
    simpa [Instruction.wires, Instruction.gate] using control
  · refine ⟨fitsOnce_gate (by simp [one]) (by simp) (by simpa using ht), ?_⟩
    simpa [Instruction.wires, Instruction.gate] using target
  · refine ⟨fitsOnce_gate rfl (by simpa using ne.symm) (by simp [hc, ht]), ?_⟩
    simpa [Instruction.wires, Instruction.gate, Instruction.cx] using ⟨target, control⟩

-- Picking from a list keeps the order of the keys.
theorem map_filterMap_sublist {α β : Type} {f : α → Option β} {k : α → Nat} {k' : β → Nat}
    (same : ∀ x y, f x = some y → k' y = k x) (l : List α) :
    ((l.filterMap f).map k').Sublist (l.map k) := by
  induction l
  case nil => exact .refl _
  case cons x l hi =>
    cases eq : f x
    case none => simpa [eq] using .cons _ hi
    case some y => simpa [eq, same x y eq] using hi.cons_cons (k x)

theorem cxNodes_sublist : (d.cxNodes.map Prod.fst).Sublist d.graph.nodes := by
  have ops : (d.opNodes.map Prod.fst).Sublist (d.graph.nodes.map id) := by
    refine map_filterMap_sublist (fun n x eq => ?_) _
    have ⟨i, _, eq⟩ := Option.map_eq_some_iff.mp eq
    exact congrArg Prod.fst eq.symm
  have cxs : (d.cxNodes.map Prod.fst).Sublist (d.opNodes.map Prod.fst) := by
    refine map_filterMap_sublist (fun x y eq => ?_) _
    have ⟨n, i⟩ := x
    dsimp only at eq
    split at eq
    case isTrue =>
      cases eq
      rfl
    case isFalse => contradiction
  exact List.map_id d.graph.nodes ▸ cxs.trans ops

theorem nodup_turnings (sub : rest.Sublist d.cxNodes) :
    ((rest.filterMap (turning? m turn)).map Revision.node).Nodup := by
  have nodes : d.graph.nodes.Nodup := d.graph.nodes_sorted.imp Nat.ne_of_lt
  have revs := map_filterMap_sublist (f := turning? m turn) (k := Prod.fst)
    (fun _ _ => node_of_turning?) rest
  exact nodes.sublist ((revs.trans (sub.map _)).trans cxNodes_sublist)

-- What the revisions make of an operation is what orientation makes of its instruction.
theorem revised_turnings (op : d.instruction? n = some i) :
    revised (d.cxNodes.filterMap (turning? m turn)) (n, i) = i.turned m turn := by
  -- The revisions of the node turn its controlled NOT.
  have of_mem : ∀ rev ∈ d.cxNodes.filterMap (turning? m turn), rev.node = n →
      i.isCx ∧ m.hasEdge i.control i.target = false ∧
        rev.written = Instruction.reversedCx turn i.control i.target := by
    intro rev hr node
    obtain ⟨⟨k, c, t⟩, hx, eq⟩ := List.mem_filterMap.mp hr
    obtain ⟨j, op', cx, hc, ht⟩ := mem_cxNodes.mp hx
    have same : k = n := (node_of_turning? eq).symm.trans node
    rw [same, op] at op'
    cases op'
    rw [turning?] at eq
    split at eq
    case isTrue => contradiction
    case isFalse edge =>
      cases eq
      subst hc ht
      exact ⟨cx, by simpa using edge, rfl⟩
  rw [Instruction.turned]
  split
  case isTrue h =>
    rw [revised]
    have mem : .replace n (Instruction.reversedCx turn i.control i.target) ∈
        d.cxNodes.filterMap (turning? m turn) := by
      refine List.mem_filterMap.mpr ⟨(n, i.control, i.target), ?_, by simp [turning?, h.2]⟩
      exact mem_cxNodes.mpr ⟨i, op, h.1, rfl, rfl⟩
    split
    case h_1 rev found =>
      have node := List.find?_some found
      exact (of_mem rev (List.mem_of_find?_eq_some found) (by simpa using node)).2.2
    case h_2 none =>
      have := List.find?_eq_none.mp none _ mem
      simp [Revision.node] at this
  case isFalse h =>
    refine revised_of_notMem fun mem => ?_
    obtain ⟨rev, hr, node⟩ := List.mem_map.mp mem
    obtain ⟨cx, edge, _⟩ := of_mem rev hr node
    exact h ⟨cx, edge⟩

-- A controlled NOT that has to be turned is an operation, and its revision fits it.
theorem of_mem_turnings {rev : Revision} (one : turn.arity = 1)
    (fits : ∀ n i, d.instruction? n = some i → d.Fits i) (sub : rest ⊆ d.cxNodes)
    (hr : rev ∈ rest.filterMap (turning? m turn)) :
    ∃ i, d.instruction? rev.node = some i ∧ i.isCx ∧ m.hasEdge i.control i.target = false ∧
      rev.Fits d i := by
  have ⟨⟨n, c, t⟩, hx, eq⟩ := List.mem_filterMap.mp hr
  have ⟨i, op, cx, hc, ht⟩ := mem_cxNodes.mp (sub hx)
  rw [turning?] at eq
  split at eq
  case isTrue => contradiction
  case isFalse edge =>
    cases eq
    subst hc ht
    exact ⟨i, op, cx, by simpa using edge, fits_turning one (fits n i op) cx⟩

theorem Serial.orient (h : d.Serial seq) (one : turn.arity = 1)
    (coupled : ∀ x ∈ d.cxNodes, m.coupled x.2.1 x.2.2) :
    ∃ d' seq', orient m turn d.cxNodes d = (.ok (), d') ∧ d.Alike d' ∧ d'.Serial seq' ∧
      seq'.map Prod.snd = (seq.map Prod.snd).flatMap (·.turned m turn) := by
  have fits : ∀ n i, d.instruction? n = some i → d.Fits i := fun n i hi =>
    (h.fits _ ((h.mem_iff n i).mpr hi)).toFits
  have valid : ∀ rev ∈ d.cxNodes.filterMap (turning? m turn),
      ∃ i, (rev.node, i) ∈ seq ∧ rev.Fits d i := by
    intro rev hr
    have ⟨i, op, _, _, fits⟩ := of_mem_turnings one fits (List.Subset.refl _) hr
    exact ⟨i, (h.mem_iff _ _).mpr op, fits⟩
  have ⟨d', seq', eq, alike, serial, written⟩ := h.reviseAll (nodup_turnings (.refl _)) valid
  refine ⟨d', seq', ?_, alike, serial, ?_⟩
  case refine_1 =>
    have oriented := orient_append coupled eq []
    rwa [List.append_nil] at oriented
  case refine_2 =>
    rw [written, List.flatMap_map]
    exact List.flatMap_congr fun x hx => revised_turnings ((h.mem_iff x.1 x.2).mp hx)

end Dag

end CircuitRouting
