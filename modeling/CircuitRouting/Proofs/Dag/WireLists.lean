import CircuitRouting.Proofs.Dag.Grafted
import CircuitRouting.Proofs.Dag.Sound

/-!
# Edits as edits of lists

A graph keeps a list of operations for each of its wires. An append, a removal and a replacement change
these lists as they would change plain lists, and leave everything else as it is; the neighbours of a
node on a wire are its neighbours in the list. The instructions of an append or a replacement may even
list a classical bit twice.
-/

namespace CircuitRouting.Dag

variable {d d' : Dag} {n : Nat} {ns : List Nat} {w : Wire} {i : Instruction}
  {is : List Instruction} {seq : List (Nat × Instruction)} {e : WireEnds}

-- A new node holds the instruction and stands at the end of its wires.
structure Appended (d : Dag) (i : Instruction) (n : Nat) (d' : Dag) : Prop where
  free : d.node? n = none
  node : ∀ m, d'.node? m = if m = n then some (.op i) else d.node? m
  wireOps : ∀ w, d'.wireOps w = if w ∈ i.wires then d.wireOps w ++ [n] else d.wireOps w

-- A node is taken out of the graph and out of all wires.
structure Removed (d : Dag) (n : Nat) (d' : Dag) : Prop where
  node : ∀ m, d'.node? m = if m = n then none else d.node? m
  wireOps : ∀ w, d'.wireOps w = (d.wireOps w).filter (· ≠ n)

-- New nodes hold the instructions and stand, on each wire, in the place of the old node, whose number
-- one of them may use again.
structure Substituted (d : Dag) (n : Nat) (is : List Instruction) (ns : List Nat) (d' : Dag) :
    Prop where
  length : ns.length = is.length
  nodup : ns.Nodup
  free : ∀ m ∈ ns, m = n ∨ d.node? m = none
  new : ∀ x ∈ ns.zip is, d'.node? x.1 = some (.op x.2)
  old : ∀ m, m ∉ ns → d'.node? m = if m = n then none else d.node? m
  wireOps : ∀ w, d'.wireOps w = replaceAt n (onWire w (ns.zip is)) (d.wireOps w)

-- The operations of a wire between its two ends, each of them next to its neighbours.
structure Strung (d : Dag) (e : WireEnds) : Prop where
  input : d.node? e.input = some (.input e.wire)
  output : d.node? e.output = some (.output e.wire)
  nodup : (track d.wireOps e).Nodup
  successor : ∀ m k, d.successor? m e.wire = some k ↔ (m, k) ∈ hops (track d.wireOps e)
  predecessor : ∀ m k, d.predecessor? k e.wire = some m ↔ (m, k) ∈ hops (track d.wireOps e)

structure RefinesLists (d : Dag) : Prop where
  apply : ∀ i n d', d.apply i = .ok (n, d') → d.Appended i n d'
  removeOp : ∀ n i d', d.removeOp n = .ok (i, d') → d.instruction? n = some i ∧ d.Removed n d'
  substitute : ∀ n is ns d', d.substitute n is = .ok (ns, d') →
    (d.instruction? n).isSome ∧ d.Substituted n is ns d'
  strung : ∀ e ∈ d.wires, d.Strung e

namespace Serial

theorem appended (h : d.Serial seq) (eq : d.append i = (.ok n, d')) : d.Appended i n d' := by
  have fits := fits_of_append eq
  have ⟨free, alike, node, traced⟩ := h.laid.of_append eq
  have kept := kept_append fits
  rw [eq] at kept
  refine ⟨free, node, fun w => ?_⟩
  by_cases hw : d'.hasWire w
  case neg =>
    have missing : ¬d.hasWire w := fun has => hw ((alike.hasWire w).mpr has)
    rw [if_neg fun mem => missing (fits.hasWire mem), wireOps_of_not_hasWire hw,
      wireOps_of_not_hasWire missing]
  case pos =>
    have ⟨e, he, wire⟩ := hasWire_iff.mp hw
    have ⟨e', he', wire', _, output⟩ := kept.exists_ends he
    have ops : ∀ m ∈ grown n i.wires (onWire · seq) w, (d'.instruction? m).isSome := by
      intro m hm
      rw [instruction?_eq, node]
      split
      case isTrue => rfl
      case isFalse ne =>
        have old : m ∈ onWire w seq := by
          rw [grown] at hm
          split at hm
          case isTrue => simpa [ne] using hm
          case isFalse => exact hm
        exact h.isSome_of_mem (onWire_sublist.subset old)
    have last : d'.instruction? e.output = none := by
      have ne : e.output ≠ n := fun eq => by
        have := h.laid.output e' he'
        simp [output, eq, free] at this
      rw [instruction?_eq, node, if_neg ne, ← output, h.laid.output e' he']
      rfl
    have found := traced.wireOps he (wire ▸ ops) last
    rw [wire] at found
    rw [found, grown, h.wireOps]

-- The node of an operation occurs once in a serial order.
theorem notMem_of_split {l r : List (Nat × Instruction)} (h : d.Serial (l ++ (n, i) :: r)) :
    n ∉ onWire w l ∧ n ∉ onWire w r := by
  have nodup := h.nodup
  rw [List.map_append, List.map_cons, List.nodup_append, List.nodup_cons] at nodup
  exact ⟨fun mem => nodup.2.2 n (onWire_sublist.subset mem) n (by simp) rfl,
    fun mem => nodup.2.1.1 (onWire_sublist.subset mem)⟩

theorem removed (h : d.Serial seq) (eq : d.removeOp n = .ok (i, d')) : d.Removed n d' := by
  have ⟨l, r, split, rep, serial⟩ := h.of_removeOp eq
  subst split
  refine ⟨fun m => rep.old m (by simp), fun w => ?_⟩
  have ⟨left, right⟩ := h.notMem_of_split (w := w)
  have keep : ∀ k : List Nat, n ∉ k → k.filter (· ≠ n) = k := fun k hk =>
    List.filter_eq_self.mpr fun m hm => decide_eq_true fun same : m = n => hk (same ▸ hm)
  rw [serial.wireOps, h.wireOps, onWire_append, onWire_append, onWire_cons, List.filter_append,
    List.filter_append, keep _ left, keep _ right]
  split <;> simp

-- The wires of a graph that can be traced with new nodes in the place of an old one.
theorem wireOps_replaced {fresh : List (Nat × Instruction)} {front : WireEnds → Nat}
    (h : d.Serial seq) (op : (d.instruction? n).isSome) (rep : d.Replaced n fresh d')
    (wires : d'.wires = d.wires.map fun e => { e with front := front e })
    (follows : ∀ e ∈ d.wires, d'.Follows e.wire
      (track (fun w => replaceAt n (onWire w fresh) (onWire w seq)) e)) (w : Wire) :
    d'.wireOps w = replaceAt n (onWire w fresh) (d.wireOps w) := by
  rw [h.wireOps]
  by_cases hw : d.hasWire w
  case neg =>
    have none : onWire w seq = [] := by rw [← h.wireOps, wireOps_of_not_hasWire hw]
    rw [wireOps_of_not_hasWire fun has => hw ((rep.alike.hasWire w).mp has), none]
    rfl
  case pos =>
    have ⟨e, he, wire⟩ := hasWire_iff.mp hw
    subst wire
    have names : d'.wireNames.Nodup := rep.alike.wireNames ▸ h.laid.wires
    have mem : { e with front := front e } ∈ d'.wires := wires ▸ List.mem_map_of_mem he
    have ops : ∀ m ∈ replaceAt n (onWire e.wire fresh) (onWire e.wire seq),
        (d'.instruction? m).isSome := by
      intro m hm
      cases mem_replaceAt hm
      case inl new => exact rep.instruction? (onWire_sublist.subset new)
      case inr old =>
        have ⟨j, hj⟩ := Option.isSome_iff_exists.mp (h.laid.ops e he m old.1)
        rw [instruction?_eq, rep.node?_of_ne (instruction?_eq_some_iff.mp hj) old.2]
        rfl
    have last : d'.instruction? e.output = none := by
      rw [instruction?_eq, (rep.node?_iff op (by simp)).mpr (h.laid.output e he)]
      rfl
    have new : (onWire e.wire fresh).Nodup := rep.nodup.sublist onWire_sublist
    have nodup := h.laid.nodup_replaceAt he new fun m hm => rep.free m (onWire_sublist.subset hm)
    exact Follows.wireOps (e := { e with front := front e }) (follows e he) (ends?_of_mem names mem)
      ops last nodup

theorem substituted (h : d.Serial seq) (eq : d.substitute n is = .ok (ns, d')) :
    d.Substituted n is ns d' := by
  obtain ⟨i, ls', found, checked, links', spliced'⟩ := substitute_eq_ok eq
  have op : (d.instruction? n).isSome := by simp [found]
  obtain ⟨nodup, exist, on⟩ := h.wires_of_mem ((h.mem_iff n i).mpr found)
  obtain ⟨ls, links, names, around⟩ := h.laid.links_eq exist fun w hw => by
    obtain ⟨e, he, same⟩ := hasWire_iff.mp (exist w hw)
    exact same ▸ (on e he).mpr (same ▸ hw)
  obtain ⟨fresh, _, spliced, snd, rep, ⟨_, wires⟩, follows⟩ := h.laid.of_splice op (names ▸ nodup)
    around (fun e he hn => names ▸ (on e he).mp hn) fun j hj w hw => names ▸ (checked j hj).2 w hw
  cases links.symm.trans links'
  cases spliced.symm.trans spliced'
  have zipped : (fresh.map Prod.fst).zip is = fresh := (List.zip_of_prod rfl snd).symm
  refine ⟨by simp [← snd], rep.nodup, rep.free, ?_, rep.old, fun w => ?_⟩
  case refine_1 =>
    rw [zipped]
    exact rep.new
  case refine_2 =>
    rw [zipped]
    exact h.wireOps_replaced op rep wires follows w

theorem strung (h : d.Serial seq) (he : e ∈ d.wires) : d.Strung e where
  input := h.laid.input e he
  output := h.laid.output e he
  nodup := h.track_wireOps e ▸ h.laid.track_nodup he
  successor _ _ := h.track_wireOps e ▸ h.laid.successor?_eq_some_iff he
  predecessor _ _ := h.track_wireOps e ▸ h.laid.predecessor?_eq_some_iff he

theorem refinesLists (h : d.Serial seq) : d.RefinesLists where
  apply _ _ _ eq := h.appended (append_of_apply eq)
  removeOp _ _ _ eq := ⟨instruction?_of_removeOp eq, h.removed eq⟩
  substitute _ _ _ _ eq :=
    have ⟨_, found, _⟩ := checked_of_substitute eq
    ⟨by simp [found], h.substituted eq⟩
  strung _ he := h.strung he

end Serial

theorem edited_refinesLists (edits : List Edit) (once : ∀ edit ∈ edits, edit.Once) :
    (edited edits).RefinesLists :=
  have ⟨_, h⟩ := exists_serial_edited once
  h.refinesLists

theorem edited_refinesLists_braid :
    (∀ edit ∈ braid, edit.Once) ∧ (edited braid).RefinesLists :=
  ⟨by decide, edited_refinesLists braid (by decide)⟩

end CircuitRouting.Dag
