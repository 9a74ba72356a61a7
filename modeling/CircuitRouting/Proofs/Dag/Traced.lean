import CircuitRouting.Proofs.Dag.Reachable
import CircuitRouting.Proofs.Dag.WireOps

/-!
# Wires traced from their inputs

Only the newest edge of a node on a wire decides where the wire leads. So a wire can be traced from its
input to its output even if an instruction lists a classical bit twice: the edge from its node to itself
is older than the edge that leaves the node. What is appended or spliced in then stands on each wire
where it would stand if it listed the bit once.
-/

namespace CircuitRouting

namespace Graph

variable {g : Graph} {a b m n : Nat} {v w : Wire}

theorem successor?_link : (g.link a b v).successor? m w =
    if m = a ∧ w = v then some b else g.successor? m w := by
  by_cases h : m = a ∧ w = v
  case pos => simp [successor?, link, h]
  case neg =>
    have other : (a == m && v == w) = false := by
      simpa using fun eq eq' => h ⟨eq.symm, eq'.symm⟩
    rw [if_neg h, successor?, link, List.find?_cons_of_neg (by simp [other]), successor?]

theorem find?_erase_of_not {p : Edge → Bool} {x : Edge} (h : ¬p x) (l : List Edge) :
    (l.erase x).find? p = l.find? p := by
  induction l
  case nil => rfl
  case cons y l hi =>
    by_cases eq : y = x
    case pos => rw [eq, List.erase_cons_head, List.find?_cons_of_neg h]
    case neg =>
      rw [List.erase_cons_tail (by simpa using eq), List.find?_cons, List.find?_cons, hi]

theorem successor?_unlink (h : ¬(m = a ∧ w = v)) :
    (g.unlink a b v).successor? m w = g.successor? m w := by
  have other : ¬(a == m && v == w) := by
    simpa using fun eq eq' => h ⟨eq.symm, eq'.symm⟩
  rw [successor?, unlink, find?_erase_of_not other, successor?]

theorem successor?_add (x : Node) : (g.add x).successor? m w = g.successor? m w := by
  rw [successor?, edges_add, successor?]

end Graph

namespace Dag

variable {d d' : Dag} {path : Wire → List Nat} {e : WireEnds} {n m : Nat} {v w : Wire}
  {i : Instruction}

theorem Follows.congr {l : List Nat} (h : d.Follows w l)
    (same : ∀ a b, (a, b) ∈ hops l → d'.successor? a w = d.successor? a w) : d'.Follows w l :=
  fun a b hop => (same a b hop).trans (h a b hop)

-- Each wire leads along its path, and its front is the last node before its output.
structure Traced (d : Dag) (path : Wire → List Nat) : Prop where
  wires : d.wireNames.Nodup
  nodup : ∀ e ∈ d.wires, (track path e).Nodup
  follows : ∀ e ∈ d.wires, d.Follows e.wire (track path e)
  front : ∀ e ∈ d.wires, e.front = lastFrom e.input (path e.wire)

theorem Laid.traced (h : d.Laid path) : d.Traced path where
  wires := h.wires
  nodup _ he := h.track_nodup he
  follows _ he := h.follows he
  front := h.front

theorem successor?_extended : (d.extended e n).successor? m w =
    if m = n ∧ w = e.wire then some e.output
    else if m = e.front ∧ w = e.wire then some n
    else d.successor? m w := by
  have linked : (d.extended e n).successor? m w =
      (((d.graph.unlink e.front e.output e.wire).link e.front n e.wire).link n e.output
        e.wire).successor? m w := rfl
  rw [linked, Graph.successor?_link, Graph.successor?_link]
  split
  case isTrue => rfl
  case isFalse =>
    split
    case isTrue => rfl
    case isFalse other => exact Graph.successor?_unlink other

namespace Traced

theorem congr {path' : Wire → List Nat} (h : d.Traced path)
    (eq : ∀ e ∈ d.wires, path e.wire = path' e.wire) : d.Traced path' where
  wires := h.wires
  nodup e he := by
    rw [track, ← eq e he]
    exact h.nodup e he
  follows e he := by
    rw [track, ← eq e he]
    exact h.follows e he
  front e he := eq e he ▸ h.front e he

theorem ends_unique {e' : WireEnds} (h : d.Traced path) (he : e ∈ d.wires) (he' : e' ∈ d.wires)
    (eq : e.wire = e'.wire) : e = e' :=
  List.inj_on_of_nodup_map h.wires he he' eq

theorem wireOps (h : d.Traced path) (he : e ∈ d.wires)
    (ops : ∀ m ∈ path e.wire, (d.instruction? m).isSome) (none : d.instruction? e.output = none) :
    d.wireOps e.wire = path e.wire := by
  have nodup := h.nodup e he
  rw [track, List.nodup_cons, List.nodup_append] at nodup
  exact (h.follows e he).wireOps (ends?_of_mem h.wires he) ops none nodup.2.1

theorem extend_eq (h : d.Traced path) (he : e ∈ d.wires) (n : Nat) :
    d.extend e.wire n = .ok (d.extended e n) := by
  have next : d.successor? e.front e.wire = some e.output := by
    refine h.follows e he _ _ ?_
    rw [Laid.hops_track, h.front e he]
    simp
  simp [extend, ends?_of_mem h.wires he, next, extended]

-- A node is last on its wire, and no step within the path leaves it.
theorem ne_last {l : List Nat} {last a b : Nat} (nodup : (n :: (l ++ [last])).Nodup)
    (hop : (a, b) ∈ hops (n :: l)) : a ≠ lastFrom n l :=
  ne_lastFrom_of_mem_hops (nodup.sublist ((List.sublist_append_left l [last]).cons_cons n)) hop

-- A wire that is extended is traced along its new path; the other wires do not notice.
theorem of_extended {path' : Wire → List Nat} (h : d.Traced path) (he : e ∈ d.wires)
    (same : ∀ w, w ≠ e.wire → path' w = path w) (nodup : (track path' e).Nodup)
    (last : lastFrom e.input (path' e.wire) = n)
    (steps : ∀ a b, (a, b) ∈ hops (e.input :: path' e.wire) →
      a = e.front ∧ b = n ∨ a ≠ e.front ∧ (a, b) ∈ hops (track path e)) :
    (d.extended e n).Traced path' := by
  have mem : ∀ p : WireEnds → Prop, (∀ e' ∈ (d.extended e n).wires, p e') ↔
      ∀ e' ∈ d.wires, p { e' with front := if e'.wire = e.wire then n else e'.front } := by
    simp [wires_extended]
  refine ⟨by rw [wireNames_extended]; exact h.wires, (mem _).mpr fun e' he' => ?_, (mem _).mpr fun e' he' => ?_,
    (mem _).mpr fun e' he' => ?_⟩
  case refine_1 =>
    by_cases eq : e'.wire = e.wire
    case pos => exact h.ends_unique he' he eq ▸ nodup
    case neg =>
      simp only [track, same _ eq]
      exact h.nodup e' he'
  case refine_2 =>
    by_cases eq : e'.wire = e.wire
    case pos =>
      cases h.ends_unique he' he eq
      intro a b hop
      rw [successor?_extended]
      have hop : (a, b) ∈ hops (track path' e) := hop
      rw [Laid.hops_track, List.mem_append, List.mem_singleton, last, Prod.mk.injEq] at hop
      cases hop
      case inl hop =>
        have ne : a ≠ n := last ▸ ne_last nodup hop
        cases steps a b hop
        case inl here => rw [if_neg fun eq => ne eq.1, if_pos ⟨here.1, rfl⟩, here.2]
        case inr there => simpa [ne, there.1] using h.follows e he a b there.2
      case inr hop => simp [hop]
    case neg =>
      refine Follows.congr (d := d) ?_ fun a b _ => by simp [successor?_extended, eq]
      simp only [track, same _ eq]
      exact h.follows e' he'
  case refine_3 =>
    by_cases eq : e'.wire = e.wire
    case pos =>
      cases h.ends_unique he' he eq
      simp [last]
    case neg => simpa [eq, same _ eq] using h.front e' he'

-- The node is new on the wire.
theorem extended (h : d.Traced path) (he : e ∈ d.wires) (new : n ∉ track path e) :
    (d.extended e n).Traced (Function.update path e.wire (path e.wire ++ [n])) := by
  have nodup := h.nodup e he
  refine h.of_extended he (fun w ne => Function.update_of_ne ne _ _) ?_ (by simp [lastFrom]) ?_
  case refine_1 =>
    have moved : (track (Function.update path e.wire (path e.wire ++ [n])) e).Perm
        (n :: track path e) := by
      simp only [track, Function.update_self, List.append_assoc]
      exact (List.perm_middle.cons _).trans (List.Perm.swap ..)
    exact moved.nodup_iff.mpr (List.nodup_cons.mpr ⟨new, nodup⟩)
  case refine_2 =>
    intro a b hop
    rw [Function.update_self, hops_cons_concat, ← h.front e he, List.mem_append,
      List.mem_singleton, Prod.mk.injEq] at hop
    cases hop
    case inl hop =>
      exact .inr ⟨h.front e he ▸ ne_last nodup hop, by simp [Laid.hops_track, hop]⟩
    case inr hop => exact .inl hop

-- The node is the last one on the wire already.
theorem extended_again (h : d.Traced path) (he : e ∈ d.wires) (front : e.front = n) :
    (d.extended e n).Traced path := by
  have nodup := h.nodup e he
  refine h.of_extended he (fun _ _ => rfl) nodup (h.front e he ▸ front) fun a b hop => ?_
  exact .inr ⟨h.front e he ▸ ne_last nodup hop, by simp [Laid.hops_track, hop]⟩

end Traced

-- The paths once a node stands at the end of some wires.
def grown (n : Nat) (ws : List Wire) (path : Wire → List Nat) (w : Wire) : List Nat :=
  if w ∈ ws then path w ++ [n] else path w

theorem grown_append {ws ws' : List Wire} (h : w ∉ ws') :
    grown n (ws ++ ws') path w = grown n ws path w := by
  simp [grown, h]

-- A wire that was extended before keeps its path, and any other wire gets the node.
theorem Traced.extendAll {ws : List Wire} (done : List Wire) (h : d.Traced (grown n done path))
    (exist : ∀ w ∈ ws, d.hasWire w) (new : ∀ e ∈ d.wires, n ∉ track path e) :
    ∃ d', Dag.extendAll n ws d = (.ok (), d') ∧ d'.Traced (grown n (done ++ ws) path) := by
  induction ws generalizing d done
  case nil => exact ⟨d, rfl, by simpa using h⟩
  case cons w ws hi =>
    obtain ⟨e, he, eq⟩ := hasWire_iff.mp (exist w (by simp))
    subst eq
    have step := h.extend_eq he n
    have kept := kept_extend step
    have traced : (d.extended e n).Traced (grown n (done ++ [e.wire]) path) := by
      by_cases here : e.wire ∈ done
      case pos =>
        have front : e.front = n := by simp [h.front e he, grown, here, lastFrom]
        refine (h.extended_again he front).congr fun e' _ => ?_
        by_cases eq : e'.wire = e.wire
        case pos => simp [grown, eq, here]
        case neg => rw [grown_append (by simpa using eq)]
      case neg =>
        have old : track (grown n done path) e = track path e := by simp [track, grown, here]
        refine (h.extended he (old ▸ new e he)).congr fun e' _ => ?_
        by_cases eq : e'.wire = e.wire
        case pos => simp [grown, eq, here]
        case neg => rw [Function.update_of_ne eq, grown_append (by simpa using eq)]
    have exist' : ∀ w ∈ ws, (d.extended e n).hasWire w := fun w hw => by
      rw [hasWire_iff_mem, wireNames_extended]
      exact hasWire_iff_mem.mp (exist w (by simp [hw]))
    have new' : ∀ e' ∈ (d.extended e n).wires, n ∉ track path e' := fun e' he' => by
      obtain ⟨e'', he'', wire, input, output⟩ := kept.exists_ends he'
      rw [track, ← wire, ← input, ← output]
      exact new e'' he''
    obtain ⟨d', rest, traced'⟩ := hi (done ++ [e.wire]) traced exist' new'
    exact ⟨d', by simp [Dag.extendAll, step, rest], by simpa using traced'⟩

-- Wires that are traced past nodes of the graph.
structure Traceable (d : Dag) (path : Wire → List Nat) : Prop extends d.Traced path where
  tidy : d.graph.Tidy
  nodes : ∀ e ∈ d.wires, ∀ m ∈ track path e, (d.node? m).isSome

theorem Laid.traceable (h : d.Laid path) : d.Traceable path :=
  { h.traced with tidy := h.tidy, nodes := fun _ he _ => h.isSome_of_mem_track he }

theorem mem_track_grown {ws : List Wire} (h : m ∈ track (grown n ws path) e) :
    m = n ∨ m ∈ track path e := by
  simp only [track, grown, List.mem_cons, List.mem_append] at h ⊢
  split at h
  case isTrue =>
    simp only [List.mem_append, List.mem_cons, List.not_mem_nil, or_false] at h
    tauto
  case isFalse => exact .inr h

-- An append needs the operands to be valid only; an instruction may list a classical bit twice.
theorem Traceable.append (h : d.Traceable path) (fits : d.Fits i) :
    ∃ d', d.append i = (.ok d.graph.nextNumber, d') ∧ d.Alike d' ∧
      (∀ m, d'.node? m = if m = d.graph.nextNumber then some (.op i) else d.node? m) ∧
      d'.Traceable (grown d.graph.nextNumber i.wires path) := by
  have fresh : d.node? d.graph.nextNumber = none := h.tidy.node?_nextNumber
  let d₁ : Dag := { d with graph := d.graph.add (.op i) }
  have added : d₁.Traced path :=
    ⟨h.wires, h.nodup, fun e he => (h.follows e he).congr fun _ _ _ => Graph.successor?_add _, h.front⟩
  have traced : d₁.Traced (grown d.graph.nextNumber [] path) := added.congr (by simp [grown])
  have new : ∀ e ∈ d₁.wires, d.graph.nextNumber ∉ track path e := by
    intro e he mem
    have := h.nodes e he _ mem
    simp [fresh] at this
  obtain ⟨d', extended, traced'⟩ := traced.extendAll [] (fun w hw => fits.hasWire hw) new
  have eq : d.append i = (.ok d.graph.nextNumber, d') := by
    simp only [Dag.append, validate_eq_ok_iff.mpr fits]
    rw [extended]
    rfl
  have kept := kept_of_append eq
  have node : ∀ m, d'.node? m = if m = d.graph.nextNumber then some (.op i) else d.node? m :=
    fun m => (kept.node? m).trans (h.tidy.node?_add (.op i))
  refine ⟨d', eq, ⟨kept.wireNames, kept.level⟩, node, traced', kept.tidy (h.tidy.add _), ?_⟩
  intro e he m hm
  obtain ⟨e', he', wire, input, output⟩ := kept.exists_ends he
  have hm : m ∈ track (grown d.graph.nextNumber i.wires path) e' := by
    rwa [track, wire, input, output]
  rw [node]
  split
  case isTrue => rfl
  case isFalse ne => exact h.nodes e' he' m ((mem_track_grown hm).resolve_left ne)

theorem Laid.of_append (h : d.Laid path) (eq : d.append i = (.ok n, d')) :
    d.node? n = none ∧ d.Alike d' ∧
      (∀ m, d'.node? m = if m = n then some (.op i) else d.node? m) ∧
      d'.Traced (grown n i.wires path) := by
  obtain ⟨d'', eq', alike, node, traced⟩ := h.traceable.append (fits_of_append eq)
  cases eq.symm.trans eq'
  exact ⟨h.tidy.node?_nextNumber, alike, node, traced.toTraced⟩

end Dag

end CircuitRouting
