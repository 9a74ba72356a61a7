import CircuitRouting.Proofs.Dag.Written

/-!
# Calls that edit a graph

A call adds a wire, appends, removes or replaces an operation; where it fails, the graph is what the
failed call leaves behind. As long as no instruction lists a classical bit twice, calls on the empty
graph only lead to graphs with a serial order, and a call that succeeds edits that order.
-/

namespace CircuitRouting.Dag

inductive Edit where
  | addQubit (q : Nat)
  | addClbit (c : Nat)
  | apply (i : Instruction)
  | removeOp (n : Nat)
  | substitute (n : Nat) (is : List Instruction)

namespace Edit

-- The instructions that a call hands over.
def instructions : Edit → List Instruction
  | apply i => [i]
  | substitute _ is => is
  | addQubit _ | addClbit _ | removeOp _ => []

-- No instruction of the call lists a classical bit twice.
def Once (edit : Edit) : Prop :=
  ∀ i ∈ edit.instructions, i.clbits.Nodup

instance : DecidablePred Once :=
  fun edit => inferInstanceAs (Decidable (∀ i ∈ edit.instructions, i.clbits.Nodup))

-- The graph after a call, whether it succeeds or fails.
def run (d : Dag) : Edit → Dag
  | addQubit q => d.addQubit q
  | addClbit c => d.addClbit c
  | apply i => (d.append i).2
  | removeOp n =>
    match d.removeOp n with
    | .ok (_, d') => d'
    | .error _ => d
  | substitute n is =>
    match d.substitute n is with
    | .ok (_, d') => d'
    | .error _ => d

end Edit

-- The graph that calls make of the empty one.
def edited (edits : List Edit) : Dag :=
  edits.foldl Edit.run .empty

variable {d d' : Dag} {n : Nat} {ns : List Nat} {i : Instruction} {is : List Instruction}
  {seq : List (Nat × Instruction)} {edit : Edit} {edits : List Edit}

theorem instruction?_of_removeOp (h : d.removeOp n = .ok (i, d')) : d.instruction? n = some i := by
  rw [removeOp] at h
  split at h
  case h_1 => contradiction
  case h_3 => contradiction
  case h_2 j node =>
    obtain ⟨_, _, eq⟩ := bind_eq_ok_iff.mp h
    cases eq
    exact instruction?_eq_some_iff.mpr node

theorem checkReplacement_eq_ok {allowed : List Wire} (h : d.checkReplacement allowed i = .ok ()) :
    d.Fits i ∧ ∀ w ∈ i.wires, w ∈ allowed := by
  rw [checkReplacement] at h
  obtain ⟨_, valid, rest⟩ := bind_eq_ok_iff.mp h
  refine ⟨validate_eq_ok_iff.mp valid, ?_⟩
  split at rest
  case h_1 => contradiction
  case h_2 none => simpa using none

theorem kept_rejoin (n : Nat) (ls : List Link) : d.Kept (ls.foldl (rejoin n) d) := by
  induction ls generalizing d
  case nil => exact .refl d
  case cons l ls hi =>
    refine Kept.trans ?_ hi
    rw [rejoin]
    split
    case h_2 => exact ⟨rfl, rfl, rfl, rfl⟩
    case h_1 =>
      split
      case isFalse => exact ⟨rfl, rfl, rfl, rfl⟩
      case isTrue =>
        refine ⟨rfl, rfl, ?_, rfl⟩
        rw [setFront, List.map_map]
        refine List.map_congr_left fun e _ => ?_
        simp only [Function.comp]
        split <;> rfl

theorem edges_rejoin (n : Nat) (ls : List Link) : (ls.foldl (rejoin n) d).graph.edges =
    (ls.map (Spliced.closing Link.pred)).reverse ++ d.graph.edges := by
  induction ls generalizing d
  case nil => rfl
  case cons l ls hi =>
    have step : (rejoin n d l).graph.edges = Spliced.closing Link.pred l :: d.graph.edges := by
      rw [rejoin]
      split
      case h_2 => rfl
      case h_1 => split <;> rfl
    rw [List.foldl_cons, hi, step]
    simp

-- What a removal that succeeds has gone through.
theorem removeOp_eq_ok (h : d.removeOp n = .ok (i, d')) :
    d.instruction? n = some i ∧ ∃ ls, d.links n i = .ok ls ∧
      Kept { d with graph := d.graph.remove n } d' ∧
      d'.graph.edges = (ls.map (Spliced.closing Link.pred)).reverse ++ (d.graph.remove n).edges := by
  refine ⟨instruction?_of_removeOp h, ?_⟩
  rw [removeOp] at h
  split at h
  case h_1 => contradiction
  case h_3 => contradiction
  case h_2 =>
    obtain ⟨ls, links, eq⟩ := bind_eq_ok_iff.mp h
    cases eq
    exact ⟨ls, links, kept_rejoin n ls, edges_rejoin n ls⟩

-- What a replacement that succeeds has checked, and what it has gone through.
theorem substitute_eq_ok (h : d.substitute n is = .ok (ns, d')) :
    ∃ i ls, d.instruction? n = some i ∧ (∀ j ∈ is, d.Fits j ∧ ∀ w ∈ j.wires, w ∈ i.wires) ∧
      d.links n i = .ok ls ∧ d.splice n ls is = (ns, d') := by
  rw [substitute] at h
  split at h
  case h_1 => contradiction
  case h_2 i found =>
    obtain ⟨_, checked, h⟩ := bind_eq_ok_iff.mp h
    obtain ⟨ls, links, h⟩ := bind_eq_ok_iff.mp h
    exact ⟨i, ls, found, fun j hj => checkReplacement_eq_ok (forM_eq_ok_iff.mp checked j hj), links,
      Except.ok.inj h⟩

theorem checked_of_substitute (h : d.substitute n is = .ok (ns, d')) :
    ∃ i, d.instruction? n = some i ∧ ∀ j ∈ is, d.Fits j ∧ ∀ w ∈ j.wires, w ∈ i.wires :=
  have ⟨i, _, found, checked, _⟩ := substitute_eq_ok h
  ⟨i, found, checked⟩

theorem ends_advanceFront {s : Splice} (ls : List Link) (ends : List WireEnds) :
    (ls.foldl (advanceFront n s) ends).map (fun e => (e.wire, e.input, e.output)) =
      ends.map fun e => (e.wire, e.input, e.output) := by
  induction ls generalizing ends
  case nil => rfl
  case cons l ls hi =>
    rw [List.foldl_cons, hi, advanceFront, List.map_map]
    refine List.map_congr_left fun e _ => ?_
    simp only [Function.comp]
    split <;> rfl

theorem ends_substitute (h : d.substitute n is = .ok (ns, d')) :
    d'.wires.map (fun e => (e.wire, e.input, e.output)) =
      d.wires.map fun e => (e.wire, e.input, e.output) := by
  obtain ⟨_, ls, _, _, _, spliced⟩ := substitute_eq_ok h
  cases spliced
  exact ends_advanceFront ls d.wires

namespace Serial

theorem of_append (h : d.Serial seq) (once : i.clbits.Nodup) (eq : d.append i = (.ok n, d')) :
    n = d.graph.nextNumber ∧ d.Alike d' ∧ d'.Serial (seq ++ [(n, i)]) := by
  have ⟨d'', eq', alike, serial⟩ := h.append ⟨fits_of_append eq, once⟩
  cases eq.symm.trans eq'
  exact ⟨rfl, alike, serial⟩

theorem of_removeOp (h : d.Serial seq) (eq : d.removeOp n = .ok (i, d')) :
    ∃ l r, seq = l ++ (n, i) :: r ∧ d.Replaced n [] d' ∧ d'.Serial (l ++ r) := by
  have ⟨l, r, split⟩ := List.append_of_mem ((h.mem_iff n i).mpr (instruction?_of_removeOp eq))
  subst split
  have ⟨d'', eq', rep, serial⟩ := h.removeOp
  cases eq.symm.trans eq'
  exact ⟨l, r, rfl, rep, serial⟩

theorem of_substitute (h : d.Serial seq) (once : ∀ j ∈ is, j.clbits.Nodup)
    (eq : d.substitute n is = .ok (ns, d')) :
    ∃ l i r fresh, seq = l ++ (n, i) :: r ∧ fresh.map Prod.fst = ns ∧ fresh.map Prod.snd = is ∧
      (∀ j ∈ is, ∀ w ∈ j.wires, w ∈ i.wires) ∧ d.Replaced n fresh d' ∧
      d'.Serial (l ++ fresh ++ r) := by
  have ⟨i, found, checked⟩ := checked_of_substitute eq
  have ⟨l, r, split⟩ := List.append_of_mem ((h.mem_iff n i).mpr found)
  subst split
  have allowed : ∀ j ∈ is, ∀ w ∈ j.wires, w ∈ i.wires := fun j hj => (checked j hj).2
  have ⟨fresh, d'', eq', snd, rep, serial⟩ := h.substitute is
    (fun j hj => ⟨(checked j hj).1, once j hj⟩) allowed
  cases eq.symm.trans eq'
  exact ⟨l, i, r, fresh, rfl, rfl, snd, allowed, rep, serial⟩

-- One call, whether it succeeds or fails, leaves a graph with a serial order.
theorem run (h : d.Serial seq) (once : edit.Once) : ∃ seq', (edit.run d).Serial seq' := by
  cases edit
  case addQubit q => exact ⟨seq, h.addWire (.qubit q)⟩
  case addClbit c => exact ⟨seq, h.addWire (.clbit c)⟩
  case apply i =>
    cases valid : d.validate i
    case error => exact ⟨seq, by simpa [Edit.run, Dag.append, valid] using h⟩
    case ok =>
      have fits : d.FitsOnce i := ⟨validate_eq_ok_iff.mp valid, once i (by simp [Edit.instructions])⟩
      obtain ⟨d', eq, _, serial⟩ := h.append fits
      exact ⟨_, by rw [Edit.run, eq]; exact serial⟩
  case removeOp n =>
    rw [Edit.run]
    split
    case h_1 eq =>
      obtain ⟨l, r, _, _, serial⟩ := h.of_removeOp eq
      exact ⟨l ++ r, serial⟩
    case h_2 => exact ⟨seq, h⟩
  case substitute n is =>
    rw [Edit.run]
    split
    case h_1 eq =>
      obtain ⟨l, _, r, fresh, _, _, _, _, _, serial⟩ := h.of_substitute once eq
      exact ⟨l ++ fresh ++ r, serial⟩
    case h_2 => exact ⟨seq, h⟩

end Serial

-- What holds of the empty graph and is kept by each call holds after all of them.
theorem edited_induct (p : Dag → Prop) (empty : p .empty)
    (step : ∀ (d : Dag) (edit : Edit), edit.Once → p d → p (edit.run d))
    (once : ∀ edit ∈ edits, edit.Once) : p (edited edits) := by
  have run : ∀ (edits : List Edit) (d : Dag), (∀ edit ∈ edits, edit.Once) → p d →
      p (edits.foldl Edit.run d) := by
    intro edits
    induction edits
    case nil => exact fun d _ h => h
    case cons edit edits hi =>
      intro d once h
      have ⟨here, later⟩ := List.forall_mem_cons.mp once
      exact hi (edit.run d) later (step d edit here h)
  exact run edits .empty once empty

theorem exists_serial_edited (once : ∀ edit ∈ edits, edit.Once) :
    ∃ seq, (edited edits).Serial seq :=
  edited_induct (∃ seq, Serial · seq) ⟨[], .empty .logical⟩ (fun _ _ once ⟨_, h⟩ => h.run once) once

end CircuitRouting.Dag
