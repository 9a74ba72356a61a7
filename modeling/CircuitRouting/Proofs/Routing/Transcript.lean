import CircuitRouting.Pass.Routing
import CircuitRouting.Proofs.Dag.Made
import CircuitRouting.Proofs.Dag.Rewritten
import CircuitRouting.Proofs.Layers
import CircuitRouting.Proofs.Layout

/-!
# The transcript of routing

What routing emits falls into groups: some swaps, and then operations of one layer on the qubits where
the swaps have taken them. The groups of a layer make up the layer, the published swaps are those of
the groups, and the last layout is the first one after all swaps. The routed graph lists what is emitted
in this order, unless an operation lists a classical bit twice.
-/

namespace CircuitRouting

namespace Layout

-- The layout after swaps.
def swapAll (lay : Layout) (swaps : List (Nat × Nat)) : Layout :=
  swaps.foldl (fun lay e => lay.swap e.1 e.2) lay

@[simp]
theorem swapAll_nil (lay : Layout) : lay.swapAll [] = lay :=
  rfl

@[simp]
theorem swapAll_cons (lay : Layout) (e : Nat × Nat) (swaps : List (Nat × Nat)) :
    lay.swapAll (e :: swaps) = (lay.swap e.1 e.2).swapAll swaps :=
  rfl

@[simp]
theorem swapAll_append (lay : Layout) (swaps more : List (Nat × Nat)) :
    lay.swapAll (swaps ++ more) = (lay.swapAll swaps).swapAll more :=
  List.foldl_append

end Layout

namespace Instruction

-- The same action on the places where a layout has its qubits.
structure Relabelled (lay : Layout) (i j : Instruction) : Prop where
  action : j.action = i.action
  qubits : List.Forall₂ (fun q p => lay.physical? q = some p) i.qubits j.qubits
  clbits : j.clbits = i.clbits

variable {lay : Layout} {i j : Instruction}

-- A layout that has all qubits of an instruction relabels it.
theorem exists_relabelled (h : ∀ q ∈ i.qubits, (lay.physical? q).isSome) :
    ∃ j, i.Relabelled lay j := by
  have placed : ∃ ps, List.Forall₂ (fun q p => lay.physical? q = some p) i.qubits ps := by
    generalize i.qubits = qs at h
    induction qs
    case nil => exact ⟨[], .nil⟩
    case cons q qs hi =>
      have ⟨here, later⟩ := List.forall_mem_cons.mp h
      have ⟨p, hp⟩ := Option.isSome_iff_exists.mp here
      have ⟨ps, rest⟩ := hi later
      exact ⟨p :: ps, .cons hp rest⟩
  have ⟨ps, qubits⟩ := placed
  exact ⟨{ i with qubits := ps }, rfl, qubits, rfl⟩

theorem Relabelled.proper (h : i.Relabelled lay j) (proper : i.Proper) : j.Proper where
  arity n eq := h.qubits.length_eq ▸ proper.arity n (h.action ▸ eq)
  nodup := nodup_of_forall₂ h.qubits (fun _ _ _ => Layout.physical?_injective) proper.nodup

-- Swaps, each as three controlled NOTs.
def swapsAsCx (swaps : List (Nat × Nat)) : List Instruction :=
  swaps.flatMap fun e => swapAsCx e.1 e.2

theorem clbits_swapAsCx {a b : Nat} {j : Instruction} (h : j ∈ swapAsCx a b) : j.clbits = [] := by
  simp only [swapAsCx, List.mem_cons, List.not_mem_nil, or_false] at h
  rcases h with rfl | rfl | rfl <;> rfl

end Instruction

namespace Routing

theorem physical_eq_ok_iff {lay : Layout} {q p : Nat} :
    physical lay q = .ok p ↔ lay.physical? q = some p := by
  unfold physical
  cases lay.physical? q <;> simp

theorem mapQubitsM_eq_ok_iff {lay : Layout} {i j : Instruction} :
    i.mapQubitsM (physical lay) = .ok j ↔ i.Relabelled lay j := by
  simp only [Instruction.mapQubitsM, map_eq_ok_iff, mapM_eq_ok_iff, physical_eq_ok_iff]
  constructor
  case mp =>
    rintro ⟨qs, qubits, rfl⟩
    exact ⟨rfl, qubits, rfl⟩
  case mpr =>
    intro h
    refine ⟨j.qubits, h.qubits, ?_⟩
    cases j
    simp [← h.action, ← h.clbits]

-- Swaps that are followed by the operations of some nodes.
structure Group where
  swaps : List (Nat × Nat)
  nodes : List Nat

-- The instructions that a graph's operations become, group by group, from the first layout to the last.
inductive Emits (d : Dag) : Layout → List Group → List Instruction → Layout → Prop
  | nil (lay : Layout) : Emits d lay [] [] lay
  | cons {lay last : Layout} {g : Group} {gs : List Group} {placed out : List Instruction} :
    List.Forall₂ (fun n j => ∃ i, d.instruction? n = some i ∧
      i.Relabelled (lay.swapAll g.swaps) j) g.nodes placed →
    Emits d (lay.swapAll g.swaps) gs out last →
    Emits d lay (g :: gs) (Instruction.swapsAsCx g.swaps ++ placed ++ out) last

namespace Emits

variable {d : Dag} {lay mid last : Layout} {gs hs : List Group} {out out' : List Instruction}

theorem append (h : Emits d lay gs out mid) (h' : Emits d mid hs out' last) :
    Emits d lay (gs ++ hs) (out ++ out') last := by
  induction h
  case nil => exact h'
  case cons nodes _ hi =>
    rw [List.append_assoc]
    exact .cons nodes (hi h')

theorem last_eq (h : Emits d lay gs out last) :
    last = lay.swapAll (gs.flatMap Group.swaps) := by
  induction h
  case nil => rfl
  case cons hi => rw [hi, List.flatMap_cons, Layout.swapAll_append]

-- What comes out is part of a swap, or an operation of one of the nodes.
theorem of_mem {j : Instruction} (h : Emits d lay gs out last) (hj : j ∈ out) :
    (∃ a b, j ∈ Instruction.swapAsCx a b) ∨
      ∃ g ∈ gs, ∃ n ∈ g.nodes, ∃ i lay', d.instruction? n = some i ∧ i.Relabelled lay' j := by
  induction h
  case nil => simp at hj
  case cons g gs placed out nodes _ hi =>
    simp only [List.mem_append] at hj
    rcases hj with (hj | hj) | hj
    · obtain ⟨e, _, hj⟩ := List.mem_flatMap.mp hj
      exact .inl ⟨e.1, e.2, hj⟩
    · obtain ⟨n, hn, i, found, rel⟩ := exists_left_of_forall₂ nodes hj
      exact .inr ⟨g, by simp, n, hn, i, _, found, rel⟩
    · refine (hi hj).imp_right ?_
      rintro ⟨g, hg, rest⟩
      exact ⟨g, by simp [hg], rest⟩

-- Every operation comes out, with its classical bits.
theorem exists_of_mem {n : Nat} {g : Group} {i : Instruction} (h : Emits d lay gs out last)
    (hg : g ∈ gs) (hn : n ∈ g.nodes) (found : d.instruction? n = some i) :
    ∃ j ∈ out, j.clbits = i.clbits := by
  induction h
  case nil => simp at hg
  case cons placed out nodes _ hi =>
    cases List.mem_cons.mp hg
    case inl eq =>
      obtain ⟨j, hj, i', found', rel⟩ := exists_left_of_forall₂ nodes.flip (eq ▸ hn)
      cases found.symm.trans found'
      exact ⟨j, by simp [hj], rel.clbits⟩
    case inr hg =>
      have ⟨j, hj, eq⟩ := hi hg
      exact ⟨j, by simp [hj], eq⟩

end Emits

-- The groups make up the layers.
def Cover (d : Dag) (groups : List (List Group)) : Prop :=
  List.Forall₂ (fun gs layer => gs.flatMap Group.nodes = layer) groups d.layers

theorem Cover.mem_iff {d : Dag} {groups : List (List Group)} {n : Nat} (h : Cover d groups) :
    n ∈ d.layers.flatten ↔ ∃ g ∈ groups.flatten, n ∈ g.nodes := by
  rw [Cover] at h
  generalize d.layers = layers at h
  induction h
  case nil => simp
  case cons eq _ hi => simp [← eq, hi, or_and_right, exists_or]

-- Only the operations bring classical bits.
theorem Emits.once_iff {d : Dag} {lay last : Layout} {groups : List (List Group)}
    {out : List Instruction} (h : Emits d lay groups.flatten out last) (cover : Cover d groups) :
    (∀ j ∈ out, j.clbits.Nodup) ↔
      ∀ n ∈ d.layers.flatten, ∀ i, d.instruction? n = some i → i.clbits.Nodup := by
  simp only [cover.mem_iff]
  constructor
  case mp =>
    rintro once n ⟨g, hg, hn⟩ i found
    have ⟨j, hj, eq⟩ := h.exists_of_mem hg hn found
    exact eq ▸ once j hj
  case mpr =>
    intro once j hj
    rcases h.of_mem hj with ⟨a, b, hj⟩ | ⟨g, hg, n, hn, i, _, found, rel⟩
    · simp [Instruction.clbits_swapAsCx hj]
    · exact rel.clbits ▸ once n ⟨g, hg, hn⟩ i found

-- The records of the swaps of groups in front of a layer.
def records (layer : Nat) (gs : List Group) : List SwapRecord :=
  (gs.flatMap Group.swaps).map fun e => ⟨layer, e.1, e.2⟩

variable {σ : Type} {p p' p'' : Progress σ} {d : Dag} {s : Setting σ} {layer n : Nat}
  {nodes : List Nat} {gs : List Group} {out : List Instruction}

-- Routing went on by some groups in front of a layer.
structure Advance (d : Dag) (layer : Nat) (p : Progress σ) (gs : List Group)
    (out : List Instruction) (p' : Progress σ) : Prop where
  emits : Emits d p.layout gs out p'.layout
  routed : p.routed.applyAll out = .ok p'.routed
  swaps : p'.swaps = p.swaps ++ records layer gs

theorem applyAll_append {is js : List Instruction} {d₁ d₂ d₃ : Dag} (h : d₁.applyAll is = .ok d₂)
    (h' : d₂.applyAll js = .ok d₃) : d₁.applyAll (is ++ js) = .ok d₃ := by
  rw [Dag.applyAll, List.foldlM_append]
  exact bind_eq_ok_iff.mpr ⟨d₂, h, h'⟩

theorem Advance.refl (p : Progress σ) (layer : Nat) : Advance d layer p [] [] p :=
  ⟨.nil _, rfl, by simp [records]⟩

theorem Advance.trans {hs : List Group} {out' : List Instruction}
    (h : Advance d layer p gs out p') (h' : Advance d layer p' hs out' p'') :
    Advance d layer p (gs ++ hs) (out ++ out') p'' where
  emits := h.emits.append h'.emits
  routed := applyAll_append h.routed h'.routed
  swaps := by simp [h'.swaps, h.swaps, records]

theorem of_insertSwaps {swaps : List (Nat × Nat)}
    (eq : swaps.foldlM (insertSwap layer) p = .ok p') :
    p'.layout = p.layout.swapAll swaps ∧
      p.routed.applyAll (Instruction.swapsAsCx swaps) = .ok p'.routed ∧
      p'.swaps = p.swaps ++ swaps.map fun e => ⟨layer, e.1, e.2⟩ := by
  induction swaps generalizing p
  case nil =>
    cases eq
    exact ⟨rfl, rfl, by simp⟩
  case cons e swaps hi =>
    have ⟨p₁, step, eq⟩ := bind_eq_ok_iff.mp eq
    have ⟨routed, applied, same⟩ := bind_eq_ok_iff.mp step
    cases same
    have ⟨layout, rest, records⟩ := hi eq
    exact ⟨layout, applyAll_append (mapError_eq_ok_iff.mp applied) rest, by simp [records]⟩

theorem of_emitNodes (ops : ∀ n ∈ nodes, (d.instruction? n).isSome)
    (eq : nodes.foldlM (emitNode d) p = .ok p') :
    p'.layout = p.layout ∧ p'.swaps = p.swaps ∧
      ∃ placed, List.Forall₂ (fun n j => ∃ i, d.instruction? n = some i ∧
        i.Relabelled p.layout j) nodes placed ∧ p.routed.applyAll placed = .ok p'.routed := by
  induction nodes generalizing p
  case nil =>
    cases eq
    exact ⟨rfl, rfl, [], .nil, rfl⟩
  case cons n nodes hi =>
    have ⟨p₁, step, eq⟩ := bind_eq_ok_iff.mp eq
    have ⟨i, found⟩ := Option.isSome_iff_exists.mp (ops n (by simp))
    simp only [emitNode, found] at step
    have ⟨j, mapped, step⟩ := bind_eq_ok_iff.mp step
    have ⟨⟨m, routed⟩, applied, same⟩ := bind_eq_ok_iff.mp step
    cases same
    have ⟨layout, swaps, placed, nodes, rest⟩ := hi (fun n hn => ops n (by simp [hn])) eq
    refine ⟨layout, swaps, j :: placed, .cons ⟨i, found, mapQubitsM_eq_ok_iff.mp mapped⟩ nodes, ?_⟩
    refine bind_eq_ok_iff.mpr ⟨routed, ?_, rest⟩
    exact map_eq_ok_iff.mpr ⟨_, mapError_eq_ok_iff.mp applied, rfl⟩

theorem of_commit {swaps : List (Nat × Nat)}
    (ops : ∀ n ∈ nodes, (s.source.instruction? n).isSome)
    (eq : commit s layer nodes p swaps = .ok p') :
    ∃ out, Advance s.source layer p [⟨swaps, nodes⟩] out p' := by
  have ⟨p₁, first, second⟩ := bind_eq_ok_iff.mp eq
  have ⟨layout, routed, records⟩ := of_insertSwaps first
  have ⟨layout', records', placed, nodes, routed'⟩ := of_emitNodes ops second
  refine ⟨Instruction.swapsAsCx swaps ++ placed ++ [], ?_, ?_, ?_⟩
  case refine_1 =>
    rw [layout', layout]
    exact .cons (layout ▸ nodes) (.nil _)
  case refine_2 =>
    rw [List.append_nil]
    exact applyAll_append routed routed'
  case refine_3 => simp [records', records, Routing.records]

theorem of_route (ops : ∀ n ∈ nodes, (s.source.instruction? n).isSome) {done : Bool}
    (eq : route s layer nodes p = .ok (done, p')) :
    (done = true ∧ ∃ swaps out, Advance s.source layer p [⟨swaps, nodes⟩] out p') ∨
      (done = false ∧ ∃ out, Advance s.source layer p [] out p') := by
  have ⟨ps, _, eq⟩ := bind_eq_ok_iff.mp eq
  split at eq
  case isTrue =>
    have ⟨p₁, committed, same⟩ := bind_eq_ok_iff.mp eq
    cases same
    exact .inl ⟨rfl, [], of_commit ops committed⟩
  case isFalse =>
    split at eq
    split at eq
    case h_1 =>
      cases eq
      exact .inr ⟨rfl, [], .nil _, rfl, by simp [records]⟩
    case h_2 swaps _ =>
      have ⟨p₁, committed, same⟩ := bind_eq_ok_iff.mp eq
      cases same
      have ⟨out, advance⟩ := of_commit ops committed
      exact .inl ⟨rfl, swaps, out, advance.emits, advance.routed, advance.swaps⟩

-- What is routed one by one makes a group for each node.
theorem of_routeAlone (ops : ∀ n ∈ nodes, (s.source.instruction? n).isSome)
    (eq : nodes.foldlM (routeAlone s layer) p = .ok p') :
    ∃ gs out, gs.flatMap Group.nodes = nodes ∧ Advance s.source layer p gs out p' := by
  induction nodes generalizing p
  case nil =>
    cases eq
    exact ⟨[], [], rfl, .refl ..⟩
  case cons n nodes hi =>
    have ⟨p₁, step, eq⟩ := bind_eq_ok_iff.mp eq
    have ⟨⟨done, p₂⟩, routed, same⟩ := bind_eq_ok_iff.mp step
    have ⟨gs, out, members, advance'⟩ := hi (fun n hn => ops n (by simp [hn])) eq
    cases of_route (fun m hm => ops m (by simp_all)) routed
    case inl h =>
      have ⟨isDone, swaps, out₁, advance⟩ := h
      subst isDone
      cases same
      exact ⟨⟨swaps, [n]⟩ :: gs, out₁ ++ out, by simp [members], advance.trans advance'⟩
    case inr h =>
      have ⟨isDone, _⟩ := h
      subst isDone
      contradiction

-- A layer is one group, or one for each of its nodes.
theorem of_routeLayer {l : List Nat × Nat} (ops : ∀ n ∈ l.1, (s.source.instruction? n).isSome)
    (eq : routeLayer s p l = .ok p') :
    ∃ gs out, gs.flatMap Group.nodes = l.1 ∧ Advance s.source l.2 p gs out p' := by
  have ⟨⟨done, p₁⟩, routed, eq⟩ := bind_eq_ok_iff.mp eq
  cases of_route ops routed
  case inl h =>
    have ⟨isDone, swaps, out, advance⟩ := h
    subst isDone
    cases eq
    exact ⟨[⟨swaps, l.1⟩], out, by simp, advance⟩
  case inr h =>
    have ⟨isDone, out, advance⟩ := h
    subst isDone
    have ⟨gs, out', members, advance'⟩ := of_routeAlone ops eq
    exact ⟨gs, out ++ out', members, advance.trans advance'⟩

-- The swaps of all groups, each with the number of its layer.
def allRecords (groups : List (List Group)) (first : Nat) : List SwapRecord :=
  (groups.zipIdx first).flatMap fun (gs, layer) => records layer gs

theorem of_routeLayers {layers : List (List Nat)} {first : Nat}
    (ops : ∀ l ∈ layers, ∀ n ∈ l, (s.source.instruction? n).isSome)
    (eq : (layers.zipIdx first).foldlM (routeLayer s) p = .ok p') :
    ∃ groups out,
      List.Forall₂ (fun gs layer => gs.flatMap Group.nodes = layer) groups layers ∧
      Emits s.source p.layout groups.flatten out p'.layout ∧
      p.routed.applyAll out = .ok p'.routed ∧
      p'.swaps = p.swaps ++ allRecords groups first := by
  induction layers generalizing p first
  case nil =>
    cases eq
    exact ⟨[], [], .nil, .nil _, rfl, by simp [allRecords]⟩
  case cons l layers hi =>
    have ⟨p₁, step, eq⟩ := bind_eq_ok_iff.mp eq
    have ⟨gs, out, members, advance⟩ := of_routeLayer (ops l (by simp)) step
    have ⟨groups, out', members', emits, routed, swaps⟩ :=
      hi (fun l hl => ops l (by simp [hl])) eq
    refine ⟨gs :: groups, out ++ out', .cons members members', ?_, ?_, ?_⟩
    case refine_1 => exact advance.emits.append emits
    case refine_2 => exact applyAll_append advance.routed routed
    case refine_3 => simp [swaps, advance.swaps, allRecords]

-- What routing a whole circuit does.
structure Transcript (m : CouplingMap) (lay : Layout) (d : Dag) (groups : List (List Group))
    (out : List Instruction) (p : Progress σ) : Prop where
  cover : Cover d groups
  emits : Emits d lay groups.flatten out p.layout
  routed : (Dag.ofWires (List.range m.numQubits) d.clbits .physical).applyAll out = .ok p.routed
  swaps : p.swaps = allRecords groups 0

theorem of_routeAll {chooser : Chooser σ} {random : σ} {m : CouplingMap} {effort : RoutingEffort}
    {lay : Layout} (eq : routeAll chooser random m effort lay d = .ok p) :
    m.isConnectedSubset lay.occupied = true ∧
      ∃ groups out, Transcript m lay d groups out p := by
  rw [routeAll] at eq
  split at eq
  case isTrue => contradiction
  case isFalse connected =>
    have ⟨groups, out, layers, emits, routed, swaps⟩ :=
      of_routeLayers (fun l hl n hn => Dag.isSome_of_mem_layers hl hn) eq
    refine ⟨by simpa using connected, groups, out, layers, emits, routed, by simpa using swaps⟩

-- The routed graph holds what was emitted, in this order.
theorem Transcript.written {m : CouplingMap} {lay : Layout} {groups : List (List Group)}
    (t : Transcript m lay d groups out p)
    (once : ∀ n i, d.instruction? n = some i → i.clbits.Nodup) :
    (Dag.ofWires (List.range m.numQubits) d.clbits .physical).Alike p.routed ∧
      ∃ new, new.map Prod.snd = out ∧ p.routed.Written new := by
  have written := Dag.Written.ofWires (List.range m.numQubits) d.clbits .physical
  have nodup : ∀ j ∈ out, j.clbits.Nodup := (t.emits.once_iff t.cover).mpr fun n _ => once n
  have ⟨alike, new, snd, written'⟩ := written.of_applyAll nodup t.routed
  exact ⟨alike, new, snd, by simpa using written'⟩

end Routing

-- The source of choices that always takes the first.
def Chooser.first : Chooser Unit where
  weighted weights h s := (⟨0, by cases weights <;> simp_all [natSum]⟩, s)
  uniform n h s := (⟨0, h⟩, s)

namespace Pass

open Routing

theorem run_of_isOk {p : Pass} {w : Workspace} (h : (p.run w).1.isOk) :
    p.run w = (.ok (), (p.run w).2) := by
  cases eq : p.run w
  case mk r w' =>
    cases r
    case error e => simp [eq, Except.isOk, Except.toBool] at h
    case ok => rfl

variable {σ : Type} {chooser : Chooser σ} {random : σ} {effort : RoutingEffort} {w w' : Workspace}

-- What a run of the routing pass that succeeds has gone through.
theorem of_run_routing (ok : (routing chooser random effort).run w = (.ok (), w')) :
    ∃ m lay p, w.properties.couplingMap = some m ∧ w.properties.layout = some lay ∧
      routeAll chooser random m effort lay w.dag = .ok p ∧
      w' = {
        dag := p.routed
        properties := { w.properties with
          layout := some p.layout
          published := w.properties.published.insert .swaps p.swaps } } := by
  simp only [routing, allOrNothing] at ok
  split at ok
  case h_2 => simp at ok
  case h_1 w₁ eq =>
    cases ok
    split at eq
    case h_1 => contradiction
    case h_2 => contradiction
    case h_3 m lay device layout =>
      have ⟨p, routed, same⟩ := bind_eq_ok_iff.mp eq
      cases same
      exact ⟨m, lay, p, device, layout, routed, rfl⟩

-- Group by group the operations become some instructions, and the published swaps lead from the first
-- layout to the last.
def Transcribes (w w' : Workspace) (out : List Instruction) : Prop :=
  ∃ (lay last : Layout) (groups : List (List Group)),
    w.properties.layout = some lay ∧
    Cover w.dag groups ∧
    Emits w.dag lay groups.flatten out last ∧
    w'.properties.published.get? .swaps = some (allRecords groups 0) ∧
    w'.properties.layout = some last ∧
    last = lay.swapAll (groups.flatten.flatMap Group.swaps)

-- What is emitted is what the routed graph lists, exactly if no operation lists a classical bit twice.
theorem run_routing_transcript {σ : Type} (chooser : Chooser σ) (random : σ)
    (effort : RoutingEffort) {w w' : Workspace}
    (ok : (routing chooser random effort).run w = (.ok (), w')) :
    (∃ out, Transcribes w w' out) ∧
      (Transcribes w w' w'.dag.instructions ↔
        ∀ n ∈ w.dag.layers.flatten, ∀ i, w.dag.instruction? n = some i → i.clbits.Nodup) := by
  have ⟨m, lay, p, _, layout, routed, eq⟩ := of_run_routing ok
  have ⟨_, groups, out, t⟩ := of_routeAll routed
  have bare := Dag.Written.ofWires (List.range m.numQubits) w.dag.clbits .physical
  have reachable := Dag.Reachable.ofWires (List.range m.numQubits) w.dag.clbits .physical
  have listed := bare.instructions_eq_iff reachable t.routed
  have transcribes : Transcribes w w' out := by
    subst eq
    refine ⟨lay, p.layout, groups, layout, t.cover, t.emits, ?_, rfl, t.emits.last_eq⟩
    simp only [Store.insert, Store.get?_set_self]
    exact congrArg some t.swaps
  have dag : w'.dag = p.routed := congrArg Workspace.dag eq
  refine ⟨⟨out, transcribes⟩, ?_, fun once => ?_⟩
  case refine_1 =>
    -- What the routed graph lists has no classical bit twice, and each operation is among it.
    rintro ⟨_, _, groups', _, cover, emits, _⟩
    refine (emits.once_iff cover).mp fun j hj => ?_
    exact (reachable.applyAll t.routed).nodup_of_mem_instructions (dag ▸ hj)
  case refine_2 =>
    rw [dag, listed.mpr ((t.emits.once_iff t.cover).mpr once)]
    exact transcribes

-- A gate on the two ends of a chain of three qubits, which a swap brings together.
def chainWires : Dag := ((Dag.empty.addQubit 0).addQubit 1).addQubit 2

def chainGate : Workspace where
  dag := (chainWires.append (.cx 0 2)).2
  properties := { couplingMap := some (.linear 3), layout := some (.trivial 3) }

theorem chainGate_reachable : chainGate.dag.Reachable :=
  .apply (.addQubit 2 (.addQubit 1 (.addQubit 0 .empty))) (i := .cx 0 2) (n := 6) rfl

theorem run_routing_transcript_chain :
    ∃ w', (routing Chooser.first () {}).run chainGate = (.ok (), w') ∧
      Transcribes chainGate w' w'.dag.instructions := by
  have ok := run_of_isOk (p := routing Chooser.first () {}) (w := chainGate) (by decide +kernel)
  have verified : chainGate.dag.verify = .ok () := by decide +kernel
  exact ⟨_, ok, (run_routing_transcript _ _ _ ok).2.mpr fun _ _ _ =>
    chainGate_reachable.nodup_clbits verified⟩

-- An operation that lists a classical bit twice, in a graph that passes the checks.
def halfwayBoard : Workspace where
  dag := Dag.edited Dag.halfway
  properties := { couplingMap := some (.linear 1), layout := some .empty }

-- It is routed, and missing from what the routed graph lists.
theorem run_routing_halfway : halfwayBoard.dag.verify = .ok () ∧ halfwayBoard.dag.layers = [[6]] ∧
    ∃ w', (routing Chooser.first () {}).run halfwayBoard = (.ok (), w') ∧
      w'.dag.instructions = [] ∧ ¬Transcribes halfwayBoard w' w'.dag.instructions := by
  have dag : halfwayBoard.dag = Dag.edited Dag.halfway := by rw [halfwayBoard]
  have layers : halfwayBoard.dag.layers = [[6]] := by decide +kernel
  have ok := run_of_isOk (p := routing Chooser.first () {}) (w := halfwayBoard) (by decide +kernel)
  have lost : ((routing Chooser.first () {}).run halfwayBoard).2.dag.instructions = [] := by
    decide +kernel
  refine ⟨dag ▸ Dag.verify_halfway, layers, _, ok, lost, ?_⟩
  rintro ⟨_, _, groups, _, cover, emits, _⟩
  rw [lost] at emits
  have ⟨g, hg, hn⟩ := cover.mem_iff.mp (show 6 ∈ halfwayBoard.dag.layers.flatten by simp [layers])
  have op : (halfwayBoard.dag.instruction? 6).isSome := by decide +kernel
  have ⟨_, found⟩ := Option.isSome_iff_exists.mp op
  have ⟨_, hj, _⟩ := emits.exists_of_mem hg hn found
  exact List.not_mem_nil hj

end Pass

end CircuitRouting
