import CircuitRouting.Proofs.Dag.Laid
import Mathlib.Logic.Function.Basic

/-!
# Wires and operations at the end

A new wire leads from its input straight to its output. A new operation becomes the last one on the
paths of its wires; on unbroken wires this cannot fail.
-/

namespace CircuitRouting

-- As many qubits as the action takes, and all of them different.
structure Instruction.Proper (i : Instruction) : Prop where
  arity : ∀ n, i.action.arity? = some n → i.qubits.length = n
  nodup : i.qubits.Nodup

namespace Dag

variable {d : Dag} {path : Wire → List Nat} {e : WireEnds} {n m : Nat} {w : Wire}

-- The names of the wires, in the order in which they were added.
def wireNames (d : Dag) : List Wire :=
  d.wires.map WireEnds.wire

theorem hasWire_iff_mem : d.hasWire w ↔ w ∈ d.wireNames := by
  simp [hasWire_iff, wireNames]

theorem addWire_of_hasWire (h : d.hasWire w) : d.addWire w = d := by
  simp [addWire, h]

theorem wireNames_addWire (h : ¬d.hasWire w) : (d.addWire w).wireNames = d.wireNames ++ [w] := by
  simp [addWire, h, wireNames]

theorem hasWire_addWire {w' : Wire} : (d.addWire w).hasWire w' ↔ d.hasWire w' ∨ w' = w := by
  by_cases h : d.hasWire w
  case pos =>
    rw [addWire_of_hasWire h]
    exact ⟨.inl, fun h' => h'.elim id fun eq => eq ▸ h⟩
  case neg => simp [hasWire_iff_mem, wireNames_addWire h]

@[simp]
theorem level_addWire : (d.addWire w).level = d.level := by
  simp only [addWire]
  split <;> rfl

-- What a new wire brings: its two ends, the edge between them, and nothing else.
structure NewWire (d : Dag) (w : Wire) (input output : Nat) (d' : Dag) : Prop where
  noInput : d.node? input = none
  noOutput : d.node? output = none
  ne : input ≠ output
  wires : d'.wires = d.wires ++ [⟨w, input, output, input⟩]
  edges : d'.graph.edges = ⟨input, output, w⟩ :: d.graph.edges
  tidy : d'.graph.Tidy
  node? : ∀ n, d'.node? n =
    if n = output then some (.output w) else if n = input then some (.input w) else d.node? n

theorem exists_newWire (t : d.graph.Tidy) (h : ¬d.hasWire w) :
    ∃ input output, d.NewWire w input output (d.addWire w) := by
  have t' := t.add (.input w)
  have fresh := t'.node?_nextNumber
  rw [t.node?_add] at fresh
  split at fresh
  case isTrue => simp at fresh
  case isFalse ne =>
    refine ⟨d.graph.nextNumber, (d.graph.add (.input w)).nextNumber,
      t.node?_nextNumber, fresh, Ne.symm ne, ?_, ?_, ?_, fun n => ?_⟩
    all_goals simp only [addWire, h, Bool.false_eq_true, if_false]
    case refine_2 => rw [Graph.edges_link, Graph.edges_add, Graph.edges_add]
    case refine_3 => exact (t'.add _).link _ _ _
    case refine_4 =>
      have node := t'.node?_add (n := n) (.output w)
      rwa [t.node?_add] at node

namespace NewWire

variable {d' : Dag} {input output : Nat} {x : Node}

theorem node?_input (h : d.NewWire w input output d') : d'.node? input = some (.input w) := by
  rw [h.node?, if_neg h.ne, if_pos rfl]

theorem node?_output (h : d.NewWire w input output d') : d'.node? output = some (.output w) := by
  rw [h.node?, if_pos rfl]

-- What was a node before is none of the new ends.
theorem old (h : d.NewWire w input output d') (hx : d.node? n = some x) : d'.node? n = some x := by
  have ne₁ : n ≠ output := fun eq => Option.some_ne_none x ((eq ▸ hx).symm.trans h.noOutput)
  have ne₂ : n ≠ input := fun eq => Option.some_ne_none x ((eq ▸ hx).symm.trans h.noInput)
  rw [h.node?, if_neg ne₁, if_neg ne₂, hx]

theorem node?_cases (h : d.NewWire w input output d') (hx : d'.node? n = some x) :
    n = output ∧ x = .output w ∨ n = input ∧ x = .input w ∨ d.node? n = some x := by
  rw [h.node?] at hx
  split at hx <;> try split at hx
  case isTrue eq => exact .inl ⟨eq, (Option.some.inj hx).symm⟩
  case isFalse.isTrue eq => exact .inr (.inl ⟨eq, (Option.some.inj hx).symm⟩)
  case isFalse.isFalse => exact .inr (.inr hx)

-- The ends of a wire are no operations.
theorem instruction? (h : d.NewWire w input output d') (n : Nat) :
    d'.instruction? n = d.instruction? n := by
  rw [instruction?_eq, instruction?_eq, h.node?]
  split <;> try split
  case isTrue eq => simp [eq, h.noOutput, Node.instruction?]
  case isFalse.isTrue eq => simp [eq, h.noInput, Node.instruction?]
  case isFalse.isFalse => rfl

theorem forall_mem_wires {P : WireEnds → Prop} (h : d.NewWire w input output d') :
    (∀ e ∈ d'.wires, P e) ↔ (∀ e ∈ d.wires, P e) ∧ P ⟨w, input, output, input⟩ := by
  rw [h.wires, List.forall_mem_append, List.forall_mem_singleton]

theorem exists_mem_wires {P : WireEnds → Prop} (h : d.NewWire w input output d') :
    (∃ e ∈ d'.wires, P e) ↔ P ⟨w, input, output, input⟩ ∨ ∃ e ∈ d.wires, P e := by
  simp only [h.wires, List.mem_append, List.mem_singleton, or_and_right, exists_or, exists_eq_left]
  exact or_comm

theorem nodup_wires (h : d.NewWire w input output d') (new : ¬d.hasWire w)
    (nodup : (d.wires.map WireEnds.wire).Nodup) : (d'.wires.map WireEnds.wire).Nodup := by
  rw [h.wires, List.map_append]
  refine List.nodup_append.mpr ⟨nodup, by simp, ?_⟩
  intro v hv v' hw eq
  have same : v = w := eq.trans (List.mem_singleton.mp hw)
  exact new (hasWire_iff_mem.mpr (same ▸ hv))

end NewWire

theorem instruction?_addWire (t : d.graph.Tidy) (w : Wire) (n : Nat) :
    (d.addWire w).instruction? n = d.instruction? n := by
  by_cases h : d.hasWire w
  case pos => rw [addWire_of_hasWire h]
  case neg =>
    have ⟨_, _, added⟩ := exists_newWire t h
    exact added.instruction? n

-- The only hop of a wire without operations leads from its input to its output.
theorem hops_track_of_empty (empty : path e.wire = []) :
    hops (track path e) = [(e.input, e.output)] := by
  rw [track, empty]
  rfl

theorem Laid.addWire (h : d.Laid path) (new : ¬d.hasWire w) (empty : path w = []) :
    (d.addWire w).Laid path := by
  obtain ⟨input, output, added⟩ := exists_newWire h.tidy new
  refine ⟨added.tidy, added.nodup_wires new h.wires,
    added.forall_mem_wires.mpr ⟨fun e he => added.old (h.input e he), added.node?_input⟩,
    added.forall_mem_wires.mpr ⟨fun e he => added.old (h.output e he), added.node?_output⟩,
    fun n v hn => ?_, fun n v hn => ?_, ?_,
    added.forall_mem_wires.mpr ⟨h.nodup, by simp [empty]⟩,
    added.forall_mem_wires.mpr ⟨h.front, by simp [empty, lastFrom]⟩, ?_, fun x => ?_⟩
  case refine_1 =>
    rw [added.exists_mem_wires]
    rcases added.node?_cases hn with ⟨_, eq⟩ | ⟨rfl, eq⟩ | hn
    · contradiction
    · exact .inl ⟨(Node.input.inj eq).symm, rfl⟩
    · exact .inr (h.inputs n v hn)
  case refine_2 =>
    rw [added.exists_mem_wires]
    rcases added.node?_cases hn with ⟨rfl, eq⟩ | ⟨_, eq⟩ | hn
    · exact .inl ⟨(Node.output.inj eq).symm, rfl⟩
    · contradiction
    · exact .inr (h.outputs n v hn)
  case refine_3 =>
    simp only [added.instruction?]
    exact added.forall_mem_wires.mpr ⟨h.ops, by simp [empty]⟩
  case refine_4 =>
    rw [added.edges]
    refine List.nodup_cons.mpr ⟨fun mem => ?_, h.edges_nodup⟩
    obtain ⟨e, he, eq, _⟩ := (h.mem_edges _).mp mem
    exact new (hasWire_iff.mpr ⟨e, he, eq⟩)
  case refine_5 =>
    obtain ⟨s, t, v⟩ := x
    rw [added.edges, List.mem_cons, h.mem_edges, added.exists_mem_wires]
    refine or_congr_left ?_
    rw [hops_track_of_empty (e := ⟨w, input, output, input⟩) empty]
    simp only [Edge.mk.injEq, List.mem_singleton, Prod.mk.injEq]
    tauto

-- The graph with a node at the end of a wire.
def extended (d : Dag) (e : WireEnds) (n : Nat) : Dag :=
  { d with
    graph := ((d.graph.unlink e.front e.output e.wire).link e.front n e.wire).link n e.output
      e.wire }.setFront e.wire n

@[simp]
theorem node?_extended : (d.extended e n).node? m = d.node? m :=
  rfl

@[simp]
theorem instruction?_extended : (d.extended e n).instruction? m = d.instruction? m :=
  rfl

@[simp]
theorem level_extended : (d.extended e n).level = d.level :=
  rfl

theorem wires_extended : (d.extended e n).wires =
    d.wires.map fun e' => { e' with front := if e'.wire = e.wire then n else e'.front } := by
  refine List.map_congr_left fun e' _ => ?_
  split <;> rfl

@[simp]
theorem wireNames_extended : (d.extended e n).wireNames = d.wireNames := by
  simp [wireNames, wires_extended, Function.comp_def]

namespace Laid

theorem extend_eq (h : d.Laid path) (he : e ∈ d.wires) (n : Nat) :
    d.extend e.wire n = .ok (d.extended e n) := by
  have next : d.successor? e.front e.wire = some e.output := by
    rw [h.successor?_eq_some_iff he, hops_track, h.front e he]
    simp
  simp [extend, h.ends?_eq he, next, extended]

-- What holds of the new path of one wire and of the old paths of the others holds of all wires.
theorem forall_update (P : WireEnds → List Nat → Prop) {nodes : List Nat} (h : d.Laid path)
    (he : e ∈ d.wires) (here : P e nodes)
    (there : ∀ e' ∈ d.wires, e'.wire ≠ e.wire → P e' (path e'.wire)) :
    ∀ e' ∈ d.wires, P e' (Function.update path e.wire nodes e'.wire) := by
  intro e' he'
  by_cases eq : e'.wire = e.wire
  case pos =>
    cases h.ends_unique he' he eq
    rwa [Function.update_self]
  case neg =>
    rw [Function.update_of_ne eq]
    exact there e' he' eq

theorem mem_edges_extended {x : Edge} (h : d.Laid path) : x ∈ (d.extended e n).graph.edges ↔
    x = ⟨n, e.output, e.wire⟩ ∨ x = ⟨e.front, n, e.wire⟩ ∨
      x ≠ ⟨e.front, e.output, e.wire⟩ ∧ x ∈ d.graph.edges := by
  rw [← h.edges_nodup.mem_erase_iff]
  exact List.mem_cons.trans (or_congr_right List.mem_cons)

theorem edges_nodup_extended (h : d.Laid path) (he : e ∈ d.wires) (new : n ∉ track path e) :
    (d.extended e n).graph.edges.Nodup := by
  have absent : ∀ s t, ⟨s, t, e.wire⟩ ∈ d.graph.edges → n ≠ s ∧ n ≠ t := by
    intro s t mem
    have := mem_of_mem_hops ((h.mem_edges_iff he).mp mem)
    exact ⟨fun eq => new (eq ▸ this.1), fun eq => new (eq ▸ this.2)⟩
  have ne_front : n ≠ e.front := by
    rw [h.front e he]
    rintro rfl
    exact new (List.mem_append_left [e.output] (lastFrom_mem e.input (path e.wire)))
  refine List.nodup_cons.mpr ⟨?_, List.nodup_cons.mpr ⟨?_, h.edges_nodup.erase _⟩⟩
  case refine_1 =>
    intro mem
    cases List.mem_cons.mp mem
    case inl eq => exact ne_front (Edge.mk.inj eq).1
    case inr mem => exact (absent _ _ (List.mem_of_mem_erase mem)).1 rfl
  case refine_2 => exact fun mem => (absent _ _ (List.mem_of_mem_erase mem)).2 rfl

theorem hops_track_extended (h : d.Laid path) (he : e ∈ d.wires) (n : Nat) :
    hops (track (Function.update path e.wire (path e.wire ++ [n])) e) =
      hops (e.input :: path e.wire) ++ [(e.front, n), (n, e.output)] := by
  rw [hops_track, Function.update_self, hops_cons_concat, ← h.front e he]
  simp [lastFrom]

-- The hop to the output is the last one.
theorem notMem_hops_front (h : d.Laid path) (he : e ∈ d.wires) :
    (e.front, e.output) ∉ hops (e.input :: path e.wire) := by
  intro hop
  cases List.mem_cons.mp (mem_of_mem_hops hop).2
  case inl eq => exact h.input_ne_output he he eq.symm
  case inr mem => exact h.ne_output he (h.ops e he _ mem) rfl

-- The edges of the wire that grows.
theorem mem_edges_extended_iff {s t : Nat} (h : d.Laid path) (he : e ∈ d.wires) :
    ⟨s, t, e.wire⟩ ∈ (d.extended e n).graph.edges ↔
      (s, t) ∈ hops (track (Function.update path e.wire (path e.wire ++ [n])) e) := by
  rw [h.mem_edges_extended, h.hops_track_extended he, h.mem_edges_iff he, hops_track, ← h.front e he]
  simp only [Edge.mk.injEq, and_true, ne_eq, List.mem_append, List.mem_cons, Prod.mk.injEq,
    List.not_mem_nil, or_false]
  constructor
  case mp => tauto
  case mpr =>
    rintro (mem | mem | mem)
    · exact .inr (.inr ⟨fun eq => h.notMem_hops_front he (by simpa [eq.1, eq.2] using mem), .inl mem⟩)
    · exact .inr (.inl mem)
    · exact .inl mem

theorem extended (h : d.Laid path) (he : e ∈ d.wires) (op : (d.instruction? n).isSome)
    (new : n ∉ path e.wire) :
    (d.extended e n).Laid (Function.update path e.wire (path e.wire ++ [n])) := by
  have new' : n ∉ track path e := fun hn => new ((h.mem_track_iff he op).mp hn)
  have nodup : (path e.wire ++ [n]).Nodup := by
    refine List.nodup_append.mpr ⟨h.nodup e he, by simp, ?_⟩
    rintro a ha b hb rfl
    exact new (List.mem_singleton.mp hb ▸ ha)
  have grown : ∀ m ∈ path e.wire ++ [n], (d.instruction? m).isSome :=
    List.forall_mem_append.mpr ⟨h.ops e he, by simpa using op⟩
  have last : (if e.wire = e.wire then n else e.front) = lastFrom e.input (path e.wire ++ [n]) := by
    simp [lastFrom]
  have ops := h.forall_update (fun _ nodes => ∀ m ∈ nodes, (d.instruction? m).isSome) he grown
    fun e' he' _ => h.ops e' he'
  have nodups := h.forall_update (fun _ nodes => nodes.Nodup) he nodup fun e' he' _ => h.nodup e' he'
  have fronts := h.forall_update
    (fun e' nodes => (if e'.wire = e.wire then n else e'.front) = lastFrom e'.input nodes) he last
    fun e' he' ne => by rw [if_neg ne, h.front e' he']
  refine h.revise _ (((h.tidy.unlink ..).link ..).link ..) wires_extended (fun _ _ => Iff.rfl)
    (fun _ _ => Iff.rfl) ops nodups fronts (h.edges_nodup_extended he new') ?_
  rintro ⟨s, t, w⟩
  by_cases hw : w = e.wire
  case pos =>
    subst hw
    rw [h.mem_edges_extended_iff he]
    constructor
    case mp => exact fun mem => ⟨e, he, rfl, mem⟩
    case mpr =>
      rintro ⟨e', he', eq, mem⟩
      exact h.ends_unique he' he eq ▸ mem
  case neg =>
    simp only [h.mem_edges_extended, Edge.mk.injEq, hw, and_false, false_or, ne_eq,
      not_false_eq_true, true_and, h.mem_edges]
    refine exists_congr fun e' => and_congr_right fun he' => and_congr_right fun eq => ?_
    rw [track, track, Function.update_of_ne (eq ▸ hw)]

end Laid

-- Two graphs with the same wires, added in the same order, on the same level.
structure Alike (d d' : Dag) : Prop where
  wireNames : d'.wireNames = d.wireNames
  level : d'.level = d.level

namespace Alike

variable {d₁ d₂ d₃ : Dag}

theorem refl (d : Dag) : d.Alike d :=
  ⟨rfl, rfl⟩

theorem trans (h₁ : d₁.Alike d₂) (h₂ : d₂.Alike d₃) : d₁.Alike d₃ :=
  ⟨h₂.wireNames.trans h₁.wireNames, h₂.level.trans h₁.level⟩

theorem hasWire (h : d₁.Alike d₂) (w : Wire) : d₂.hasWire w ↔ d₁.hasWire w := by
  rw [hasWire_iff_mem, hasWire_iff_mem, h.wireNames]

end Alike

theorem Laid.extendAll {ws : List Wire} (h : d.Laid path) (op : (d.instruction? n).isSome)
    (nodup : ws.Nodup) (exist : ∀ w ∈ ws, d.hasWire w) (new : ∀ w ∈ ws, n ∉ path w) :
    ∃ d', extendAll n ws d = (.ok (), d') ∧ d.Alike d' ∧ (∀ m, d'.node? m = d.node? m) ∧
      d'.Laid fun w => if w ∈ ws then path w ++ [n] else path w := by
  induction ws generalizing d path
  case nil => exact ⟨d, rfl, .refl d, fun _ => rfl, by simpa using h⟩
  case cons w ws hi =>
    have ⟨e, he, hw⟩ := hasWire_iff.mp (exist w (by simp))
    subst hw
    have ⟨fresh, nodup⟩ := List.nodup_cons.mp nodup
    have alike : d.Alike (d.extended e n) := ⟨wireNames_extended, level_extended⟩
    have laid := h.extended he op (new e.wire (by simp))
    have ne : ∀ w ∈ ws, w ≠ e.wire := fun w hw eq => fresh (eq ▸ hw)
    have ⟨d', eq, alike', node, laid'⟩ := hi laid op nodup
      (fun w hw => (alike.hasWire w).mpr (exist w (by simp [hw])))
      (fun w hw => by
        rw [Function.update_of_ne (ne w hw)]
        exact new w (by simp [hw]))
    refine ⟨d', ?_, alike.trans alike', node, laid'.congr fun e' _ => ?_⟩
    case refine_1 => simp [Dag.extendAll, h.extend_eq he n, eq]
    case refine_2 =>
      by_cases eq : e'.wire = e.wire
      case pos => simp [eq, fresh]
      case neg => simp [eq]

-- The operands of an instruction are as many as it needs, exist, and no qubit is repeated.
structure Fits (d : Dag) (i : Instruction) : Prop where
  arity : ∀ n, i.action.arity? = some n → i.qubits.length = n
  measure : i.isMeasure → i.clbits.length = 1
  qubits : ∀ q ∈ i.qubits, d.hasWire (.qubit q)
  clbits : ∀ c ∈ i.clbits, d.hasWire (.clbit c)
  nodup : i.qubits.Nodup

theorem Fits.proper {d : Dag} {i : Instruction} (h : d.Fits i) : i.Proper :=
  ⟨h.arity, h.nodup⟩

theorem firstRepeated?_eq_none_iff {seen xs : List Nat} :
    firstRepeated? seen xs = none ↔ xs.Nodup ∧ ∀ x ∈ xs, x ∉ seen := by
  induction xs generalizing seen
  case nil => simp [firstRepeated?]
  case cons x xs hi =>
    by_cases hx : x ∈ seen
    case pos => simp [firstRepeated?, hx]
    case neg =>
      simp only [firstRepeated?, List.contains_eq_mem, hx, decide_false, Bool.false_eq_true, if_false,
        hi, List.nodup_cons, List.mem_cons, not_or, forall_eq_or_imp, not_false_eq_true, true_and]
      constructor
      case mp =>
        rintro ⟨nodup, h⟩
        exact ⟨⟨fun mem => (h x mem).1 rfl, nodup⟩, fun y hy => (h y hy).2⟩
      case mpr =>
        rintro ⟨⟨fresh, nodup⟩, h⟩
        exact ⟨nodup, fun y hy => ⟨fun eq => fresh (eq ▸ hy), h y hy⟩⟩

theorem validate_eq_ok_iff {i : Instruction} : d.validate i = .ok () ↔ d.Fits i := by
  have qubits : (i.qubits.find? fun q => !d.hasWire (.qubit q)) = none ↔
      ∀ q ∈ i.qubits, d.hasWire (.qubit q) := by
    simp
  have clbits : (i.clbits.find? fun c => !d.hasWire (.clbit c)) = none ↔
      ∀ c ∈ i.clbits, d.hasWire (.clbit c) := by
    simp
  have nodup : firstRepeated? [] i.qubits = none ↔ i.qubits.Nodup := by
    simp [firstRepeated?_eq_none_iff]
  -- Each check of a valid instruction passes, and each failed check ends the validation.
  have checks : d.validate i = .ok () ↔
      (∀ n, i.action.arity? = some n → i.qubits.length = n) ∧
      (i.isMeasure → i.clbits.length = 1) ∧
      (i.qubits.find? fun q => !d.hasWire (.qubit q)) = none ∧
      (i.clbits.find? fun c => !d.hasWire (.clbit c)) = none ∧
      firstRepeated? [] i.qubits = none := by
    cases ha : i.action.arity? <;> cases hq : i.qubits.find? fun q => !d.hasWire (.qubit q) <;>
      cases hc : i.clbits.find? fun c => !d.hasWire (.clbit c) <;>
      cases hr : firstRepeated? [] i.qubits <;>
      simp only [validate, ha, hq, hc, hr] <;>
      by_cases hm : i.isMeasure ∧ i.clbits.length ≠ 1 <;>
      simp [hm, bind, Except.bind, pure, Except.pure, throw, throwThe, MonadExceptOf.throw,
        ite_eq_iff] <;>
      grind
  rw [checks, qubits, clbits, nodup]
  constructor
  case mp => exact fun ⟨h₁, h₂, h₃, h₄, h₅⟩ => ⟨h₁, h₂, h₃, h₄, h₅⟩
  case mpr => exact fun ⟨h₁, h₂, h₃, h₄, h₅⟩ => ⟨h₁, h₂, h₃, h₄, h₅⟩

namespace Fits

variable {i : Instruction}

theorem wires_nodup (h : d.Fits i) (clbits : i.clbits.Nodup) : i.wires.Nodup := by
  refine List.nodup_append.mpr ⟨h.nodup.map fun _ _ => by simp, clbits.map fun _ _ => by simp, ?_⟩
  intro a ha b hb eq
  simp only [List.mem_map] at ha hb
  have ⟨_, _, ha⟩ := ha
  have ⟨_, _, hb⟩ := hb
  simp [← ha, ← hb] at eq

theorem hasWire (h : d.Fits i) (hw : w ∈ i.wires) : d.hasWire w := by
  simp only [Instruction.wires, List.mem_append, List.mem_map] at hw
  rcases hw with ⟨q, hq, rfl⟩ | ⟨c, hc, rfl⟩
  · exact h.qubits q hq
  · exact h.clbits c hc

theorem congr {d' : Dag} (h : d.Fits i) (wires : ∀ w, d.hasWire w → d'.hasWire w) : d'.Fits i :=
  ⟨h.arity, h.measure, fun q hq => wires _ (h.qubits q hq), fun c hc => wires _ (h.clbits c hc),
    h.nodup⟩

end Fits

-- A valid instruction that repeats no wire is appended to the paths of its wires.
theorem Laid.append {i : Instruction} (h : d.Laid path) (fits : d.Fits i) (clbits : i.clbits.Nodup) :
    ∃ d', d.append i = (.ok d.graph.nextNumber, d') ∧ d.Alike d' ∧
      (∀ m, d'.node? m = if m = d.graph.nextNumber then some (.op i) else d.node? m) ∧
      d'.Laid fun w => if w ∈ i.wires then path w ++ [d.graph.nextNumber] else path w := by
  let n := d.graph.nextNumber
  let d₁ : Dag := { d with graph := d.graph.add (.op i) }
  have node : ∀ m, d₁.node? m = if m = n then some (.op i) else d.node? m :=
    fun m => h.tidy.node?_add (.op i)
  have fresh : d.node? n = none := h.tidy.node?_nextNumber
  have edges : d₁.graph.edges = d.graph.edges := Graph.edges_add _
  have old : ∀ m, (d.instruction? m).isSome → (d₁.instruction? m).isSome := by
    intro m hm
    rw [instruction?_eq, node]
    split
    case isTrue => rfl
    case isFalse => exact hm
  have laid : d₁.Laid path := by
    refine h.revise WireEnds.front (h.tidy.add _) (by simp [d₁]) ?_ ?_
      (fun e he m hm => old m (h.ops e he m hm)) h.nodup h.front ?_ ?_
    case refine_1 => intro m w; rw [node]; split <;> simp_all
    case refine_2 => intro m w; rw [node]; split <;> simp_all
    case refine_3 => exact edges ▸ h.edges_nodup
    case refine_4 => exact fun x => edges ▸ h.mem_edges x
  have new : ∀ w ∈ i.wires, n ∉ path w := by
    intro w hw mem
    obtain ⟨e, he, eq⟩ := hasWire_iff.mp (fits.hasWire hw)
    have op := h.ops e he n (eq ▸ mem)
    simp [instruction?_eq, fresh] at op
  have op : (d₁.instruction? n).isSome := by simp [instruction?_eq, node, Node.instruction?]
  obtain ⟨d', eq, alike, node', laid'⟩ := laid.extendAll op (fits.wires_nodup clbits)
    (fun w hw => fits.hasWire hw) new
  refine ⟨d', ?_, ⟨alike.wireNames, alike.level⟩, fun m => (node' m).trans (node m), laid'⟩
  simp only [Dag.append, validate_eq_ok_iff.mpr fits]
  rw [eq]
  rfl

end Dag

end CircuitRouting
