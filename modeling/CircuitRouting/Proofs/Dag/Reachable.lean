import CircuitRouting.Proofs.Dag.Edited

/-!
# Graphs that edits lead to

The reachable graphs are those that successful edits make of the empty one. An operation that lists a
classical bit twice is put on its wire twice, and so comes just after itself: a reachable graph that
passes the checks has no such operation.
-/

namespace CircuitRouting

namespace Graph

variable {g : Graph} {n m : Nat} {x : Node}

theorem mem_edges_remove {e : Edge} (h : e ∈ g.edges) (source : e.source ≠ n)
    (target : e.target ≠ n) : e ∈ (g.remove n).edges := by
  simp [remove, h, source, target]

end Graph

namespace Dag

-- Every edit has succeeded. An operation that is refused may leave a node with some of its edges, and
-- what edits make of that is not reachable; the graphs that any edits lead to, refused ones too, are
-- those of `Made`.
inductive Reachable : Dag → Prop
  | empty : Reachable .empty
  | addQubit {d : Dag} (q : Nat) : Reachable d → Reachable (d.addQubit q)
  | addClbit {d : Dag} (c : Nat) : Reachable d → Reachable (d.addClbit c)
  | apply {d d' : Dag} {i : Instruction} {n : Nat} :
    Reachable d → d.apply i = .ok (n, d') → Reachable d'
  | removeOp {d d' : Dag} {i : Instruction} {n : Nat} :
    Reachable d → d.removeOp n = .ok (i, d') → Reachable d'
  | substitute {d d' : Dag} {is : List Instruction} {n : Nat} {ns : List Nat} :
    Reachable d → d.substitute n is = .ok (ns, d') → Reachable d'
  | setLevel {d : Dag} (level : Level) : Reachable d → Reachable { d with level }

variable {d d' : Dag} {n m : Nat} {w : Wire} {i : Instruction} {ws : List Wire} {is : List Instruction}

-- A node that comes just after itself.
def Loops (g : Graph) (n : Nat) : Prop :=
  ∃ w, ⟨n, n, w⟩ ∈ g.edges

theorem Loops.mono {g g' : Graph} (h : Loops g n) (edges : g.edges ⊆ g'.edges) : Loops g' n :=
  have ⟨w, hw⟩ := h
  ⟨w, edges hw⟩

-- What repeats a classical bit comes just after itself.
structure Marked (g : Graph) : Prop where
  tidy : g.Tidy
  loops : ∀ n i, g.instruction? n = some i → ¬i.clbits.Nodup → Loops g n

-- The same nodes, and at least the same edges.
structure Wider (g g' : Graph) : Prop where
  slots : g'.slots = g.slots
  freed : g'.freed = g.freed
  edges : g.edges ⊆ g'.edges

namespace Wider

theorem refl (g : Graph) : Wider g g :=
  ⟨rfl, rfl, List.Subset.refl _⟩

theorem trans {g₁ g₂ g₃ : Graph} (h : Wider g₁ g₂) (h' : Wider g₂ g₃) : Wider g₁ g₃ :=
  ⟨h'.slots.trans h.slots, h'.freed.trans h.freed, List.Subset.trans h.edges h'.edges⟩

theorem link (g : Graph) (a b : Nat) (w : Wire) : Wider g (g.link a b w) :=
  ⟨rfl, rfl, List.subset_cons_self _ _⟩

theorem node? {g g' : Graph} (h : Wider g g') (n : Nat) : g'.node? n = g.node? n := by
  simp [Graph.node?, h.slots]

theorem tidy {g g' : Graph} (h : Wider g g') (t : g.Tidy) : g'.Tidy :=
  t.congr h.slots h.freed

theorem marked {g g' : Graph} (h : Wider g g') (m : Marked g) : Marked g' where
  tidy := h.tidy m.tidy
  loops n i hi rep := by
    rw [Graph.instruction?, h.node?, ← Graph.instruction?] at hi
    exact (m.loops n i hi rep).mono h.edges

end Wider

theorem not_nodup_wires (h : ¬i.clbits.Nodup) : ¬i.wires.Nodup :=
  fun nodup => h (List.Nodup.of_map _ (List.nodup_append.mp nodup).2.1)

-- What an append that succeeds has gone through.
theorem append_eq_ok (h : d.append i = (.ok n, d')) :
    d.Fits i ∧ n = d.graph.nextNumber ∧
      extendAll n i.wires { d with graph := d.graph.add (.op i) } = (.ok (), d') := by
  have fits := fits_of_append h
  refine ⟨fits, ?_⟩
  simp only [append, validate_eq_ok_iff.mpr fits, Prod.mk.injEq] at h
  obtain ⟨_, ok, number⟩ := map_eq_ok_iff.mp h.1
  exact ⟨number.symm, number ▸ Prod.ext ok h.2⟩

section Extend

theorem extend_eq_ok (h : d.extend w n = .ok d') :
    ∃ e, d.ends? w = some e ∧
      d'.graph.edges = ⟨n, e.output, w⟩ :: ⟨e.front, n, w⟩ ::
        d.graph.edges.erase ⟨e.front, e.output, w⟩ ∧
      d'.wires = d.wires.map fun e => if e.wire = w then { e with front := n } else e := by
  rw [extend] at h
  split at h
  case h_1 => contradiction
  case h_2 e found =>
    split at h
    case isFalse => contradiction
    case isTrue =>
      cases h
      exact ⟨e, found, rfl, rfl⟩

-- Only edges to outputs are cut.
theorem mem_edges_extend {x : Edge} (h : d.extend w n = .ok d') (hx : x ∈ d.graph.edges)
    (inner : ∀ e ∈ d.wires, e.output ≠ x.target) : x ∈ d'.graph.edges := by
  have ⟨e, found, edges, _⟩ := extend_eq_ok h
  rw [edges]
  refine List.mem_cons_of_mem _ (List.mem_cons_of_mem _ ((List.mem_erase_of_ne ?_).mpr hx))
  exact fun eq => inner e (List.mem_of_find?_eq_some found) (congrArg Edge.target eq).symm

theorem mem_edges_extendAll (n : Nat) (ws : List Wire) {x : Edge} (hx : x ∈ d.graph.edges)
    (inner : ∀ e ∈ d.wires, e.output ≠ x.target) : x ∈ (extendAll n ws d).2.graph.edges := by
  induction ws generalizing d
  case nil => exact hx
  case cons w ws hi =>
    rw [extendAll]
    split
    case h_1 d' eq =>
      refine hi (mem_edges_extend eq hx inner) fun e he => ?_
      obtain ⟨e', he', _, _, output⟩ := (kept_extend eq).exists_ends he
      exact output ▸ inner e' he'
    case h_2 => exact hx

theorem extendAll_cons_eq_ok (h : extendAll n (w :: ws) d = (.ok (), d')) :
    ∃ d₁, d.extend w n = .ok d₁ ∧ extendAll n ws d₁ = (.ok (), d') := by
  rw [extendAll] at h
  split at h
  case h_1 d₁ eq => exact ⟨d₁, eq, h⟩
  case h_2 => simp at h

theorem front_extend {v : Wire} (h : d.extend w n = .ok d') {e : WireEnds}
    (found : d.ends? v = some e) (front : v = w ∨ e.front = n) :
    ∃ e', d'.ends? v = some e' ∧ e'.front = n := by
  have ⟨_, _, _, wires⟩ := extend_eq_ok h
  have same : (fun e : WireEnds => e.wire == v) ∘
      (fun e : WireEnds => if e.wire = w then { e with front := n } else e) =
      fun e => e.wire == v := by
    funext e
    simp only [Function.comp]
    split <;> rfl
  have wire := List.find?_some found
  simp only [beq_iff_eq] at wire
  rw [ends?] at found
  rw [ends?, wires, List.find?_map, same, found]
  refine ⟨_, rfl, ?_⟩
  dsimp only
  split
  case isTrue => rfl
  case isFalse ne => exact front.resolve_left fun eq => ne (wire.trans eq)

-- A wire whose front is the node gets a loop when it is extended by the node once more.
theorem loops_of_front {e : WireEnds} (found : d.ends? w = some e) (front : e.front = n)
    (inner : ∀ e ∈ d.wires, e.output ≠ n) (hw : w ∈ ws)
    (eq : extendAll n ws d = (.ok (), d')) : Loops d'.graph n := by
  induction ws generalizing d e
  case nil => simp at hw
  case cons v ws hi =>
    have ⟨d₁, step, rest⟩ := extendAll_cons_eq_ok eq
    have inner₁ : ∀ e ∈ d₁.wires, e.output ≠ n := fun e he =>
      have ⟨e', he', _, _, output⟩ := (kept_extend step).exists_ends he
      output ▸ inner e' he'
    by_cases here : w = v
    case pos =>
      have ⟨e', found', edges, _⟩ := extend_eq_ok step
      rw [← here, found, Option.some.injEq] at found'
      have loop : ⟨n, n, v⟩ ∈ d₁.graph.edges := by simp [edges, ← found', front]
      have := mem_edges_extendAll n ws loop inner₁
      rw [rest] at this
      exact ⟨v, this⟩
    case neg =>
      have ⟨e₁, found₁, front₁⟩ := front_extend step found (.inr front)
      have hw := (List.mem_cons.mp hw).resolve_left here
      exact hi found₁ front₁ inner₁ hw rest

theorem loops_extendAll (inner : ∀ e ∈ d.wires, e.output ≠ n) (repeated : ¬ws.Nodup)
    (eq : extendAll n ws d = (.ok (), d')) : Loops d'.graph n := by
  induction ws generalizing d
  case nil => simp at repeated
  case cons w ws hi =>
    have ⟨d₁, step, rest⟩ := extendAll_cons_eq_ok eq
    have inner₁ : ∀ e ∈ d₁.wires, e.output ≠ n := fun e he =>
      have ⟨e', he', _, _, output⟩ := (kept_extend step).exists_ends he
      output ▸ inner e' he'
    by_cases hw : w ∈ ws
    case pos =>
      have ⟨e, found, _⟩ := extend_eq_ok step
      have ⟨e₁, found₁, front₁⟩ := front_extend step found (.inl rfl)
      exact loops_of_front found₁ front₁ inner₁ hw rest
    case neg => exact hi inner₁ (fun nodup => repeated (List.nodup_cons.mpr ⟨hw, nodup⟩)) rest

end Extend

section Thread

variable {s : Splice}

theorem wider_thread : Wider s.graph (s.thread n w).graph := by
  rw [Splice.thread]
  split
  case h_1 => exact .link ..
  case h_2 => exact .refl _

theorem wider_foldl_thread (ws : List Wire) :
    Wider s.graph (ws.foldl (Splice.thread n) s).graph := by
  induction ws generalizing s
  case nil => exact .refl _
  case cons w ws hi => exact wider_thread.trans hi

theorem last_thread {v : Wire} (h : v = w ∨ s.last.lookup v = some n) :
    (s.thread n w).last.lookup v = some n := by
  have eq : (s.thread n w).last = (w, n) :: s.last := by
    rw [Splice.thread]
    split <;> rfl
  rw [eq, List.lookup_cons]
  split
  case h_1 => rfl
  case h_2 ne => exact h.resolve_left (by simpa using ne)

theorem loops_foldl_thread (h : ¬ws.Nodup ∨ ∃ w ∈ ws, s.last.lookup w = some n) :
    Loops (ws.foldl (Splice.thread n) s).graph n := by
  induction ws generalizing s
  case nil => simp at h
  case cons w ws hi =>
    by_cases here : s.last.lookup w = some n
    case pos =>
      have loop : Loops (s.thread n w).graph n := ⟨w, by simp [Splice.thread, here]⟩
      exact loop.mono (wider_foldl_thread ws).edges
    case neg =>
      refine hi ?_
      cases h
      case inl repeated =>
        by_cases hw : w ∈ ws
        case pos => exact .inr ⟨w, hw, last_thread (.inl rfl)⟩
        case neg => exact .inl fun nodup => repeated (List.nodup_cons.mpr ⟨hw, nodup⟩)
      case inr h =>
        obtain ⟨v, hv, last⟩ := h
        cases List.mem_cons.mp hv
        case inl eq => exact absurd (eq ▸ last) here
        case inr hv => exact .inr ⟨v, hv, last_thread (.inr last)⟩

theorem wider_foldl_close (ls : List Link) :
    Wider s.graph (ls.foldl Splice.close s).graph := by
  induction ls generalizing s
  case nil => exact .refl _
  case cons l ls hi =>
    refine Wider.trans ?_ hi
    rw [Splice.close]
    split
    case h_1 => exact .link ..
    case h_2 => exact .refl _

end Thread

namespace Marked

variable {g : Graph}

theorem empty : Marked {} where
  tidy := .empty
  loops n i hi := by simp [Graph.instruction?, Graph.node?] at hi

theorem loops_of_ne {j : Instruction} (h : Marked g) (hj : (g.add (.op i)).instruction? m = some j)
    (ne : m ≠ g.nextNumber) (rep : ¬j.clbits.Nodup) : Loops g m := by
  rw [Graph.instruction?, h.tidy.node?_add, if_neg ne, ← Graph.instruction?] at hj
  exact h.loops m j hj rep

theorem remove (h : Marked g) (op : (g.instruction? n).isSome) : Marked (g.remove n) := by
  have node : (g.node? n).isSome := by
    obtain ⟨i, hi⟩ := Option.isSome_iff_exists.mp op
    rw [Graph.instruction?_eq_some_iff.mp hi]
    rfl
  refine ⟨h.tidy.remove node, fun m i hi rep => ?_⟩
  rw [Graph.instruction?, Graph.node?_remove node] at hi
  split at hi
  case isTrue => simp at hi
  case isFalse ne =>
    obtain ⟨w, hw⟩ := h.loops m i hi rep
    exact ⟨w, Graph.mem_edges_remove hw ne ne⟩

theorem push {s : Splice} (h : Marked s.graph) (i : Instruction) :
    Marked (s.push i).graph ∧
      ∀ m x, s.graph.node? m = some x → (s.push i).graph.node? m = some x := by
  let s' : Splice :=
    { s with graph := s.graph.add (.op i), added := s.added ++ [s.graph.nextNumber] }
  have wider : Wider (s.graph.add (.op i)) (s.push i).graph :=
    wider_foldl_thread (s := s') (n := s.graph.nextNumber) i.wires
  refine ⟨⟨wider.tidy (h.tidy.add (.op i)), fun m j hj rep => ?_⟩, fun m x hx => ?_⟩
  case refine_1 =>
    rw [Graph.instruction?, wider.node?, ← Graph.instruction?] at hj
    by_cases eq : m = s.graph.nextNumber
    case pos =>
      subst eq
      rw [Graph.instruction?, h.tidy.node?_add, if_pos rfl] at hj
      cases hj
      exact loops_foldl_thread (s := s') (.inl (not_nodup_wires rep))
    case neg =>
      refine (h.loops_of_ne hj eq rep).mono (List.Subset.trans ?_ wider.edges)
      rw [Graph.edges_add]
      exact List.Subset.refl _
  case refine_2 =>
    rw [wider.node?, h.tidy.node?_add_of_isSome _ (by simp [hx]), hx]

theorem pushAll {s : Splice} (h : Marked s.graph) (is : List Instruction) :
    Marked (is.foldl Splice.push s).graph ∧
      ∀ m x, s.graph.node? m = some x → (is.foldl Splice.push s).graph.node? m = some x := by
  induction is generalizing s
  case nil => exact ⟨h, fun _ _ => id⟩
  case cons i is hi =>
    have ⟨h', old⟩ := h.push i
    have ⟨h'', old'⟩ := hi h'
    exact ⟨h'', fun m x hx => old' m x (old m x hx)⟩

-- A replacement takes out one node only.
theorem splice (h : Marked d.graph) (op : (d.instruction? n).isSome) (ls : List Link)
    (is : List Instruction) : Marked (d.splice n ls is).2.graph ∧
      ∀ m x, (d.graph.remove n).node? m = some x → (d.splice n ls is).2.node? m = some x := by
  let start : Splice := ⟨d.graph.remove n, ls.map fun l => (l.wire, l.pred), []⟩
  have ⟨marked, old⟩ := pushAll (s := start) (h.remove op) is
  have wider := wider_foldl_close (s := is.foldl Splice.push start) ls
  exact ⟨wider.marked marked, fun m x hx => (wider.node? m).trans (old m x hx)⟩

end Marked

-- The outputs are where the wires say.
structure Braced (d : Dag) : Prop where
  marked : Marked d.graph
  output : ∀ e ∈ d.wires, ∃ w, d.node? e.output = some (.output w)

namespace Braced

theorem ne_output {e : WireEnds} (h : d.Braced) (he : e ∈ d.wires)
    (op : (d.instruction? n).isSome) : e.output ≠ n := by
  rintro rfl
  have ⟨w, hw⟩ := h.output e he
  simp [instruction?_eq, hw, Node.instruction?] at op

theorem addWire (h : d.Braced) (w : Wire) : (d.addWire w).Braced := by
  by_cases hw : d.hasWire w
  case pos =>
    rw [addWire_of_hasWire hw]
    exact h
  case neg =>
    have ⟨input, output, added⟩ := exists_newWire h.marked.tidy hw
    refine ⟨⟨added.tidy, fun n i hn rep => ?_⟩, added.forall_mem_wires.mpr ⟨fun e he => ?_, ?_⟩⟩
    case refine_1 =>
      refine (h.marked.loops n i ((added.instruction? n).symm.trans hn) rep).mono ?_
      rw [added.edges]
      exact List.subset_cons_self _ _
    case refine_2 =>
      have ⟨v, hv⟩ := h.output e he
      exact ⟨v, added.old hv⟩
    case refine_3 => exact ⟨w, added.node?_output⟩

-- A new node leaves the outputs what they are.
theorem output_add {e : WireEnds} (h : d.Braced) (he : e ∈ d.wires) (i : Instruction) :
    ∃ w, (d.graph.add (.op i)).node? e.output = some (.output w) := by
  have ⟨w, hw⟩ := h.output e he
  exact ⟨w, (h.marked.tidy.node?_add_of_isSome _ (Option.isSome_of_eq_some hw)).trans hw⟩

theorem ne_output_add {e : WireEnds} {j : Instruction} (h : d.Braced) (he : e ∈ d.wires)
    (op : (d.graph.add (.op i)).instruction? m = some j) : e.output ≠ m := by
  rintro rfl
  have ⟨w, hw⟩ := h.output_add he i
  simp [Graph.instruction?, hw, Node.instruction?] at op

theorem apply (h : d.Braced) (eq : d.apply i = .ok (n, d')) : d'.Braced := by
  obtain ⟨fits, number, extended⟩ := append_eq_ok (append_of_apply eq)
  let d₁ : Dag := { d with graph := d.graph.add (.op i) }
  have kept : Kept d₁ d' := kept_of_append (append_of_apply eq)
  refine ⟨⟨kept.tidy (h.marked.tidy.add _), fun m j hj rep => ?_⟩, fun e he => ?_⟩
  case refine_1 =>
    have hj : d₁.graph.instruction? m = some j := by
      rwa [Graph.instruction?, ← show d'.graph.node? m = d₁.graph.node? m from kept.node? m]
    have inner : ∀ e ∈ d₁.wires, e.output ≠ m := fun e he => h.ne_output_add he hj
    by_cases eq : m = n
    case pos =>
      subst eq
      rw [Graph.instruction?, number, h.marked.tidy.node?_add, if_pos rfl] at hj
      cases hj
      exact loops_extendAll inner (not_nodup_wires rep) extended
    case neg =>
      obtain ⟨w, hw⟩ := h.marked.loops_of_ne hj (number ▸ eq) rep
      have old : ⟨m, m, w⟩ ∈ d₁.graph.edges := by simpa [d₁, Graph.edges_add] using hw
      have := mem_edges_extendAll n i.wires old inner
      rw [extended] at this
      exact ⟨w, this⟩
  case refine_2 =>
    obtain ⟨e', he', _, _, output⟩ := kept.exists_ends he
    obtain ⟨w, hw⟩ := h.output_add he' i
    exact ⟨w, output ▸ (kept.node? _).trans hw⟩

-- An edit that takes a node out, keeps the other nodes and moves fronts only.
theorem of_removed (h : d.Braced) (op : (d.instruction? n).isSome) (marked : Marked d'.graph)
    (old : ∀ m x, (d.graph.remove n).node? m = some x → d'.node? m = some x)
    (ends : d'.wires.map (fun e => (e.wire, e.input, e.output)) =
      d.wires.map fun e => (e.wire, e.input, e.output)) : d'.Braced := by
  refine ⟨marked, fun e he => ?_⟩
  have ⟨e', he', _, _, output⟩ := exists_same_ends ends he
  have ⟨w, hw⟩ := h.output e' he'
  refine ⟨w, old _ _ ?_⟩
  rw [Graph.node?_remove (isSome_of_instruction? op), ← output, if_neg (h.ne_output he' op)]
  exact hw

theorem removeOp (h : d.Braced) (eq : d.removeOp n = .ok (i, d')) : d'.Braced := by
  have ⟨found, _, _, kept, edges⟩ := removeOp_eq_ok eq
  have op := Option.isSome_of_mem found
  have wider : Wider (d.graph.remove n) d'.graph :=
    ⟨kept.slots, kept.freed, edges ▸ List.subset_append_right _ _⟩
  exact h.of_removed op (wider.marked (h.marked.remove op)) (fun m x hx => (wider.node? m).trans hx)
    kept.ends

theorem substitute {ns : List Nat} (h : d.Braced) (eq : d.substitute n is = .ok (ns, d')) :
    d'.Braced := by
  have ⟨_, ls, found, _, _, spliced⟩ := substitute_eq_ok eq
  have op := Option.isSome_of_mem found
  have ⟨marked, old⟩ := h.marked.splice op ls is
  rw [spliced] at marked old
  exact h.of_removed op marked old (ends_substitute eq)

end Braced

theorem Reachable.braced (h : d.Reachable) : d.Braced := by
  induction h
  case empty => exact ⟨.empty, fun _ he => nomatch he⟩
  case addQubit q _ hi => exact hi.addWire _
  case addClbit c _ hi => exact hi.addWire _
  case apply eq hi => exact hi.apply eq
  case removeOp eq hi => exact hi.removeOp eq
  case substitute eq hi => exact hi.substitute eq
  case setLevel hi => exact ⟨hi.marked, hi.output⟩

theorem length_order_of_verify (h : d.verify = .ok ()) : d.order.length = d.graph.nodes.length := by
  by_contra ne
  simp only [verify, ne_eq, ne, not_false_eq_true, if_true] at h
  contradiction

theorem mem_order_of_verify (h : d.verify = .ok ()) : n ∈ d.order ↔ (d.node? n).isSome :=
  mem_order_of_length (length_order_of_verify h)

-- What comes just after itself is never ready.
theorem notMem_order_of_loops (h : Loops d.graph n) : n ∉ d.order := by
  intro mem
  have ⟨w, loop⟩ := h
  have ⟨u, v, split⟩ := List.append_of_mem mem
  have nodup : d.order.Nodup := nodup_order
  have peel : Graph.peel _ _ _ = u ++ n :: v := d.graph.order_eq_peel.symm.trans split
  have before := Graph.source_mem_of_peel_eq peel loop rfl
  rw [split] at nodup
  exact (List.nodup_append.mp nodup).2.2 n before n (by simp) rfl

theorem not_loops_of_verify (h : d.verify = .ok ()) (node : (d.node? n).isSome) :
    ¬Loops d.graph n := fun loops =>
  notMem_order_of_loops loops ((mem_order_of_verify h).mpr node)

-- A reachable graph that passes the checks has no operation that lists a classical bit twice.
theorem Reachable.nodup_clbits (h : d.Reachable) (ok : d.verify = .ok ())
    (hi : d.instruction? n = some i) : i.clbits.Nodup := by
  by_contra rep
  exact not_loops_of_verify ok (isSome_of_instruction? (by simp [hi]))
    (h.braced.marked.loops n i hi rep)

-- In a graph with a serial order no call fails halfway.
theorem Reachable.run {seq : List (Nat × Instruction)} {edit : Edit} (h : d.Reachable)
    (serial : d.Serial seq) (once : edit.Once) : (edit.run d).Reachable := by
  cases edit
  case addQubit q => exact .addQubit q h
  case addClbit c => exact .addClbit c h
  case apply i =>
    cases valid : d.validate i
    case error => simpa [Edit.run, Dag.append, valid] using h
    case ok =>
      have fits : d.FitsOnce i := ⟨validate_eq_ok_iff.mp valid, once i (by simp [Edit.instructions])⟩
      obtain ⟨d', eq, _⟩ := serial.append fits
      rw [Edit.run, eq]
      exact .apply h (by rw [Dag.apply, eq])
  case removeOp n =>
    rw [Edit.run]
    split
    case h_1 eq => exact .removeOp h eq
    case h_2 => exact h
  case substitute n is =>
    rw [Edit.run]
    split
    case h_1 eq => exact .substitute h eq
    case h_2 => exact h

theorem reachable_edited {edits : List Edit} (once : ∀ edit ∈ edits, edit.Once) :
    (edited edits).Reachable := by
  have both := edited_induct (fun d => d.Reachable ∧ ∃ seq, d.Serial seq)
    ⟨.empty, [], .empty .logical⟩
    (fun d edit once ⟨h, _, serial⟩ => ⟨h.run serial once, serial.run once⟩) once
  exact both.1

end Dag

end CircuitRouting
