import CircuitRouting.Proofs.Dag.Traced

/-!
# Replacements that list a bit twice

A replacement is traced like an append: on each wire the newest edges lead from the node before the gap
through the new nodes to the node after it, also if an instruction is threaded onto a wire twice.
-/

namespace CircuitRouting.Dag

variable {d : Dag} {path : Wire → List Nat} {base : Graph} {ls : List Link} {l : Link}
  {mid : Wire → List Nat} {fresh : List (Nat × Instruction)} {s : Splice} {n m : Nat} {w : Wire}
  {i : Instruction}

theorem added_foldl_thread (ws : List Wire) : (ws.foldl (Splice.thread n) s).added = s.added := by
  induction ws generalizing s
  case nil => rfl
  case cons w ws hi =>
    refine (hi (s := s.thread n w)).trans ?_
    rw [Splice.thread]
    split <;> rfl

-- Threading adds no node.
theorem Grafted.foldl_thread (h : Grafted base fresh s) (ws : List Wire) :
    Grafted base fresh (ws.foldl (Splice.thread n) s) where
  tidy := (wider_foldl_thread ws).tidy h.tidy
  added := (added_foldl_thread ws).trans h.added
  nodup := h.nodup
  free := h.free
  new x hx := ((wider_foldl_thread ws).node? x.1).trans (h.new x hx)
  old m hm := ((wider_foldl_thread ws).node? m).trans (h.old m hm)

theorem Grafted.push (h : Grafted base fresh s) (i : Instruction) :
    Grafted base (fresh ++ [(s.graph.nextNumber, i)]) (s.push i) :=
  (h.add i).foldl_thread i.wires

-- On the wire of each link the newest edges lead from the node before the gap through the nodes of
-- `mid`; where no such node is met, they lead as in `base`.
structure Threaded (base : Graph) (ls : List Link) (mid : Wire → List Nat) (s : Splice) : Prop where
  last : ∀ l ∈ ls, s.last.lookup l.wire = some (lastFrom l.pred (mid l.wire))
  steps : ∀ l ∈ ls, ∀ a b, (a, b) ∈ hops (l.pred :: mid l.wire) →
    s.graph.successor? a l.wire = some b
  other : ∀ m w, (∀ l ∈ ls, l.wire = w → m ∉ l.pred :: mid l.wire) →
    s.graph.successor? m w = base.successor? m w

namespace Threaded

-- A wire that is led to a node once more is threaded through its new nodes; the others do not notice.
theorem of_thread {mid' : Wire → List Nat} (h : Threaded base ls mid s)
    (wires : (ls.map Link.wire).Nodup) (hl : l ∈ ls) (same : ∀ w, w ≠ l.wire → mid' w = mid w)
    (keeps : mid l.wire ⊆ mid' l.wire) (last : lastFrom l.pred (mid' l.wire) = n)
    (steps : ∀ a b, (a, b) ∈ hops (l.pred :: mid' l.wire) →
      a = lastFrom l.pred (mid l.wire) ∧ b = n ∨
        a ≠ lastFrom l.pred (mid l.wire) ∧ (a, b) ∈ hops (l.pred :: mid l.wire)) :
    Threaded base ls mid' (s.thread n l.wire) := by
  have unique : ∀ l' ∈ ls, l'.wire = l.wire → l' = l := fun l' hl' eq =>
    List.inj_on_of_nodup_map wires hl' hl eq
  rw [Splice.thread_eq (h.last l hl)]
  refine ⟨fun l' hl' => ?_, fun l' hl' a b hop => ?_, fun m w out => ?_⟩
  case refine_1 =>
    by_cases eq : l'.wire = l.wire
    case pos => rw [unique l' hl' eq, last, List.lookup_cons_self]
    case neg =>
      rw [same _ eq, List.lookup_cons, beq_false_of_ne eq]
      exact h.last l' hl'
  case refine_2 =>
    rw [Graph.successor?_link]
    by_cases eq : l'.wire = l.wire
    case pos =>
      cases unique l' hl' eq
      cases steps a b hop
      case inl here => rw [if_pos ⟨here.1, rfl⟩, here.2]
      case inr there =>
        rw [if_neg fun eq => there.1 eq.1]
        exact h.steps l hl a b there.2
    case neg =>
      rw [if_neg fun both => eq both.2]
      exact h.steps l' hl' a b (same _ eq ▸ hop)
  case refine_3 =>
    have outside : ∀ l' ∈ ls, l'.wire = w → m ∉ l'.pred :: mid l'.wire := by
      intro l' hl' eq mem
      refine out l' hl' eq ?_
      by_cases here : l'.wire = l.wire
      case pos =>
        cases unique l' hl' here
        exact List.cons_subset_cons _ keeps mem
      case neg => exact same _ here ▸ mem
    rw [Graph.successor?_link, if_neg]
    case _ => exact h.other m w outside
    case _ =>
      rintro ⟨here, eq⟩
      exact outside l hl eq.symm (here ▸ lastFrom_mem l.pred (mid l.wire))

theorem thread (h : Threaded base ls mid s) (wires : (ls.map Link.wire).Nodup) (hl : l ∈ ls)
    (nodup : (l.pred :: mid l.wire).Nodup) :
    Threaded base ls (Function.update mid l.wire (mid l.wire ++ [n])) (s.thread n l.wire) := by
  refine h.of_thread wires hl (fun w ne => Function.update_of_ne ne _ _) (by simp) (by simp [lastFrom])
    fun a b hop => ?_
  rw [Function.update_self, hops_cons_concat, List.mem_append, List.mem_singleton,
    Prod.mk.injEq] at hop
  cases hop
  case inl hop => exact .inr ⟨ne_lastFrom_of_mem_hops nodup hop, hop⟩
  case inr hop => exact .inl hop

theorem thread_again (h : Threaded base ls mid s) (wires : (ls.map Link.wire).Nodup) (hl : l ∈ ls)
    (nodup : (l.pred :: mid l.wire).Nodup) (last : lastFrom l.pred (mid l.wire) = n) :
    Threaded base ls mid (s.thread n l.wire) :=
  h.of_thread wires hl (fun _ _ => rfl) (List.Subset.refl _) last fun _ _ hop =>
    .inr ⟨ne_lastFrom_of_mem_hops nodup hop, hop⟩

theorem congr {mid' : Wire → List Nat} (h : Threaded base ls mid s)
    (eq : ∀ l ∈ ls, mid l.wire = mid' l.wire) : Threaded base ls mid' s where
  last l hl := eq l hl ▸ h.last l hl
  steps l hl := eq l hl ▸ h.steps l hl
  other m w out := h.other m w fun l hl => eq l hl ▸ out l hl

theorem threadAll {ws : List Wire} (done : List Wire) (h : Threaded base ls (grown n done mid) s)
    (wires : (ls.map Link.wire).Nodup) (hws : ∀ w ∈ ws, w ∈ ls.map Link.wire)
    (nodup : ∀ l ∈ ls, (l.pred :: (mid l.wire ++ [n])).Nodup) :
    Threaded base ls (grown n (done ++ ws) mid) (ws.foldl (Splice.thread n) s) := by
  induction ws generalizing s done
  case nil => simpa using h
  case cons w ws hi =>
    have ⟨l, hl, eq⟩ := List.mem_map.mp (hws w (by simp))
    subst eq
    have step : Threaded base ls (grown n (done ++ [l.wire]) mid) (s.thread n l.wire) := by
      by_cases here : l.wire ∈ done
      case pos =>
        have all : (l.pred :: grown n done mid l.wire).Nodup := by
          simpa [grown, here] using nodup l hl
        refine (h.thread_again wires hl all (by simp [grown, here, lastFrom])).congr fun l' _ => ?_
        by_cases eq : l'.wire = l.wire
        case pos => simp [grown, eq, here]
        case neg => rw [grown_append (by simpa using eq)]
      case neg =>
        have all : (l.pred :: grown n done mid l.wire).Nodup := by
          rw [grown, if_neg here]
          exact (nodup l hl).sublist ((List.sublist_append_left _ _).cons_cons _)
        refine (h.thread wires hl all).congr fun l' _ => ?_
        by_cases eq : l'.wire = l.wire
        case pos => simp [grown, eq, here]
        case neg => rw [Function.update_of_ne eq, grown_append (by simpa using eq)]
    have rest := hi (done ++ [l.wire]) step fun w hw => hws w (by simp [hw])
    simpa using rest

end Threaded

-- The node before a gap is none of the new ones.
theorem Grafted.nodup_cons {p : Nat} (h : Grafted base fresh s) (pred : (base.node? p).isSome) :
    (p :: fresh.map Prod.fst).Nodup := by
  refine List.nodup_cons.mpr ⟨fun mem => ?_, h.nodup⟩
  simp [h.free p mem] at pred

theorem Threaded.push (h : Threaded base ls (onWire · fresh) s) (g : Grafted base fresh s)
    (wires : (ls.map Link.wire).Nodup) (preds : ∀ l ∈ ls, (base.node? l.pred).isSome)
    (allowed : ∀ w ∈ i.wires, w ∈ ls.map Link.wire) :
    Threaded base ls (onWire · (fresh ++ [(s.graph.nextNumber, i)])) (s.push i) := by
  let n := s.graph.nextNumber
  have grown_eq : ∀ w, grown n i.wires (onWire · fresh) w = onWire w (fresh ++ [(n, i)]) := fun w => by
    rw [grown, onWire_append, onWire_cons]
    split <;> simp
  have added : Threaded base ls (onWire · fresh)
      { s with graph := s.graph.add (.op i), added := s.added ++ [n] } :=
    ⟨h.last, fun l hl a b hop => (Graph.successor?_add _).trans (h.steps l hl a b hop),
      fun m w out => (Graph.successor?_add _).trans (h.other m w out)⟩
  have start : Threaded base ls (grown n [] (onWire · fresh)) _ := added.congr (by simp [grown])
  have nodup : ∀ l ∈ ls, (l.pred :: (onWire l.wire fresh ++ [n])).Nodup := by
    intro l hl
    have all := (g.push i).nodup_cons (preds l hl)
    rw [List.map_append] at all
    exact all.sublist ((onWire_sublist.append_right [n]).cons_cons l.pred)
  refine Threaded.congr (start.threadAll [] wires allowed nodup) fun l _ => ?_
  rw [List.nil_append, grown_eq]

theorem pushAll {is : List Instruction} (fresh : List (Nat × Instruction))
    (g : Grafted base fresh s) (h : Threaded base ls (onWire · fresh) s)
    (wires : (ls.map Link.wire).Nodup) (preds : ∀ l ∈ ls, (base.node? l.pred).isSome)
    (allowed : ∀ i ∈ is, ∀ w ∈ i.wires, w ∈ ls.map Link.wire) :
    ∃ fresh', fresh'.map Prod.snd = fresh.map Prod.snd ++ is ∧
      Grafted base fresh' (is.foldl Splice.push s) ∧
      Threaded base ls (onWire · fresh') (is.foldl Splice.push s) := by
  induction is generalizing s fresh
  case nil => exact ⟨fresh, by simp, g, h⟩
  case cons i is hi =>
    have ⟨fresh', snd, rest⟩ := hi _ (g.push i) (h.push g wires preds (allowed i (by simp)))
      fun j hj => allowed j (by simp [hj])
    exact ⟨fresh', by simp [snd], rest⟩


-- The edges that close a replacement are the newest ones.
theorem successor?_closing {g : Graph} {last : Link → Nat} (wires : (ls.map Link.wire).Nodup)
    (hl : l ∈ ls) : Graph.successor?
      { g with edges := (ls.map (Spliced.closing last)).reverse ++ g.edges } m l.wire =
      if m = last l then some l.succ else g.successor? m l.wire := by
  have found : (ls.map (Spliced.closing last)).reverse.find?
      (fun e => e.source == m && e.wire == l.wire) =
      if m = last l then some (Spliced.closing last l) else none := by
    split
    case isTrue eq =>
      cases found : (ls.map (Spliced.closing last)).reverse.find?
        fun e => e.source == m && e.wire == l.wire
      case none =>
        have := List.find?_eq_none.mp found (Spliced.closing last l)
          (List.mem_reverse.mpr (List.mem_map_of_mem hl))
        simp [Spliced.closing, eq] at this
      case some x =>
        obtain ⟨l', hl', eq'⟩ := List.mem_map.mp (List.mem_reverse.mp (List.mem_of_find?_eq_some found))
        have here := List.find?_some found
        subst eq'
        simp only [Spliced.closing, Bool.and_eq_true, beq_iff_eq] at here
        rw [List.inj_on_of_nodup_map wires hl' hl here.2]
    case isFalse ne =>
      refine List.find?_eq_none.mpr fun x hx here => ?_
      obtain ⟨l', hl', eq'⟩ := List.mem_map.mp (List.mem_reverse.mp hx)
      subst eq'
      simp only [Spliced.closing, Bool.and_eq_true, beq_iff_eq] at here
      exact ne (List.inj_on_of_nodup_map wires hl' hl here.2 ▸ here.1.symm)
  rw [Graph.successor?, List.find?_append, found]
  split
  case isTrue => rfl
  case isFalse => rfl

theorem successor?_closing_of_ne {g : Graph} {last : Link → Nat} (hw : w ∉ ls.map Link.wire) :
    Graph.successor? { g with edges := (ls.map (Spliced.closing last)).reverse ++ g.edges } m w =
      g.successor? m w := by
  have none : (ls.map (Spliced.closing last)).reverse.find?
      (fun e => e.source == m && e.wire == w) = none := by
    refine List.find?_eq_none.mpr fun x hx here => ?_
    have ⟨l, hl, eq⟩ := List.mem_map.mp (List.mem_reverse.mp hx)
    subst eq
    simp only [Spliced.closing, Bool.and_eq_true, beq_iff_eq] at here
    exact hw (List.mem_map.mpr ⟨l, hl, here.2⟩)
  rw [Graph.successor?, List.find?_append, none]
  rfl

section Splicing

variable {e : WireEnds} {before after : List Nat} {x y : Nat}

theorem Laid.successor?_remove (h : d.Laid path) (he : e ∈ d.wires)
    (hop : (x, y) ∈ hops (track path e)) (hx : x ≠ n) (hy : y ≠ n) :
    (d.graph.remove n).successor? x e.wire = some y := by
  have old : ∀ z ∈ (d.graph.remove n).edges, z ∈ d.graph.edges := fun z hz =>
    (List.mem_filter.mp hz).1
  refine (Graph.successor?_eq_some_iff fun z hz z' hz' source source' => ?_).mpr
    ((h.mem_remove_edges he).mpr ⟨hop, hx, hy⟩)
  exact h.source_unique z (old z hz) z' (old z' hz') (source.trans source'.symm)

theorem Laid.isSome_remove (h : d.Laid path) (op : (d.instruction? n).isSome) (he : e ∈ d.wires)
    (hm : m ∈ track path e) (ne : m ≠ n) : ((d.graph.remove n).node? m).isSome := by
  rw [Graph.node?_remove (isSome_of_instruction? op), if_neg ne]
  exact h.isSome_of_mem_track he hm

-- The node before a gap leads to the node in it, and so to no other node.
theorem Link.Around.hop_pred (a : l.Around d path n e before after) :
    (l.pred, n) ∈ hops (track path e) := by
  have ⟨_, _, eq⟩ := a.hops_track
  simp [eq]

theorem Laid.isSome_pred (h : d.Laid path) (op : (d.instruction? n).isSome)
    (a : l.Around d path n e before after) : ((d.graph.remove n).node? l.pred).isSome :=
  h.isSome_remove op a.mem (mem_of_mem_hops a.hop_pred).1
    (hops_ne (h.track_nodup a.mem) a.hop_pred).symm

-- What a step of a wire that stays has to do with the new nodes: nothing.
theorem Laid.notMem_of_hop (h : d.Laid path) (op : (d.instruction? n).isSome)
    (a : l.Around d path n e before after) (g : Grafted (d.graph.remove n) fresh s)
    (hop : (x, y) ∈ hops (track path e)) (hx : x ≠ n) (hy : y ≠ n) :
    x ∉ l.pred :: onWire l.wire fresh := by
  intro mem
  cases List.mem_cons.mp mem
  case inl eq => exact hy (hops_right_unique (h.track_nodup a.mem) hop (eq ▸ a.hop_pred))
  case inr mem =>
    have node := h.isSome_remove op a.mem (mem_of_mem_hops hop).1 hx
    simp [g.free x (onWire_sublist.subset mem)] at node

-- A wire with a gap leads through the new nodes.
theorem Laid.follows_gap (h : d.Laid path) (op : (d.instruction? n).isSome)
    (wires : (ls.map Link.wire).Nodup) (g : Grafted (d.graph.remove n) fresh s)
    (t : Threaded (d.graph.remove n) ls (onWire · fresh) s) (hl : l ∈ ls)
    (a : l.Around d path n e before after) :
    (Dag.closed d n ls (Spliced.lastOf fresh) s).Follows e.wire
      (track (fun w => replaceAt n (onWire w fresh) (path w)) e) := by
  have ⟨rest, succ, eq⟩ := Spliced.hops_track fresh a h
  have next : ∀ x, (Dag.closed d n ls (Spliced.lastOf fresh) s).successor? x l.wire =
      if x = Spliced.lastOf fresh l then some l.succ else s.graph.successor? x l.wire := fun x =>
    successor?_closing wires hl
  have nodup : (l.pred :: onWire l.wire fresh).Nodup :=
    (g.nodup_cons (h.isSome_pred op a)).sublist (onWire_sublist.cons_cons l.pred)
  -- The steps before and after the gap.
  have stays : ∀ x y, (x, y) ∈ hops (track path e) ∧ x ≠ n ∧ y ≠ n →
      (Dag.closed d n ls (Spliced.lastOf fresh) s).successor? x l.wire = some y := by
    intro x y ⟨hop, hx, hy⟩
    have out := h.notMem_of_hop op a g hop hx hy
    have ne : x ≠ Spliced.lastOf fresh l := fun eq => out (eq ▸ lastFrom_mem ..)
    have other := t.other x l.wire fun l' hl' eq =>
      List.inj_on_of_nodup_map wires hl' hl eq ▸ out
    rw [next, if_neg ne, other, ← a.wire]
    exact h.successor?_remove a.mem hop hx hy
  intro x y hop
  rw [a.wire]
  rw [eq, List.mem_append, List.mem_append, List.mem_cons, Prod.mk.injEq] at hop
  rcases hop with (hop | hop) | hop | hop
  · exact stays x y ((a.mem_hops_iff h succ).mpr (.inl hop))
  · have ne : x ≠ Spliced.lastOf fresh l := ne_lastFrom_of_mem_hops nodup hop
    rw [next, if_neg ne]
    exact t.steps l hl x y hop
  · rw [next, if_pos hop.1, hop.2]
  · exact stays x y ((a.mem_hops_iff h succ).mpr (.inr hop))

-- A wire without a gap leads where it led.
theorem Laid.follows_of_notMem (h : d.Laid path) (op : (d.instruction? n).isSome)
    (t : Threaded (d.graph.remove n) ls (onWire · fresh) s) (he : e ∈ d.wires)
    (hw : e.wire ∉ ls.map Link.wire) (hn : n ∉ path e.wire) :
    (Dag.closed d n ls (Spliced.lastOf fresh) s).Follows e.wire
      (track (fun w => replaceAt n (onWire w fresh) (path w)) e) := by
  have same : track (fun w => replaceAt n (onWire w fresh) (path w)) e = track path e := by
    simp only [track, replaceAt_of_notMem hn]
  have out : n ∉ track path e := (h.mem_track_iff he op).not.mpr hn
  intro x y hop
  rw [same] at hop
  obtain ⟨hx, hy⟩ := mem_of_mem_hops hop
  have next : (Dag.closed d n ls (Spliced.lastOf fresh) s).successor? x e.wire =
      s.graph.successor? x e.wire := successor?_closing_of_ne hw
  rw [next, t.other x e.wire fun l hl eq => absurd (eq ▸ List.mem_map_of_mem hl) hw]
  exact h.successor?_remove he hop (fun eq => out (eq ▸ hx)) fun eq => out (eq ▸ hy)

theorem replaced_grafted (ls : List Link) (op : (d.instruction? n).isSome)
    (g : Grafted (d.graph.remove n) fresh s) :
    d.Replaced n fresh (closed d n ls (Spliced.lastOf fresh) s) :=
  g.replaced op ⟨by simp [closed, wireNames], rfl⟩ fun _ => rfl

end Splicing

-- Whatever replaces an operation stands, on each wire, where the operation stood.
theorem Laid.of_splice {is : List Instruction} (h : d.Laid path) (op : (d.instruction? n).isSome)
    (wires : (ls.map Link.wire).Nodup)
    (around : ∀ l ∈ ls, ∃ e before after, l.Around d path n e before after)
    (on : ∀ e ∈ d.wires, n ∈ path e.wire → e.wire ∈ ls.map Link.wire)
    (allowed : ∀ i ∈ is, ∀ w ∈ i.wires, w ∈ ls.map Link.wire) :
    ∃ fresh d', d.splice n ls is = (fresh.map Prod.fst, d') ∧ fresh.map Prod.snd = is ∧
      d.Replaced n fresh d' ∧
      (∃ front : WireEnds → Nat, d'.wires = d.wires.map fun e => { e with front := front e }) ∧
      ∀ e ∈ d.wires, d'.Follows e.wire
        (track (fun w => replaceAt n (onWire w fresh) (path w)) e) := by
  have tidy := h.tidy.remove (isSome_of_instruction? op)
  have grafted : Grafted (d.graph.remove n) []
      ⟨d.graph.remove n, ls.map fun l => (l.wire, l.pred), []⟩ :=
    ⟨tidy, rfl, .nil, by simp, by simp, fun _ _ => rfl⟩
  have threaded : Threaded (d.graph.remove n) ls (onWire · [])
      ⟨d.graph.remove n, ls.map fun l => (l.wire, l.pred), []⟩ :=
    ⟨(Spliced.start tidy (h.edges_nodup.filter _) (h.gaps op wires)).last, by simp, fun _ _ _ => rfl⟩
  have preds : ∀ l ∈ ls, ((d.graph.remove n).node? l.pred).isSome := by
    intro l hl
    obtain ⟨_, _, _, a⟩ := around l hl
    exact h.isSome_pred op a
  obtain ⟨fresh, snd, g, t⟩ := pushAll [] grafted threaded wires preds allowed
  refine ⟨fresh, _, ?_, snd, replaced_grafted ls op g, ⟨_, rfl⟩, fun e he => ?_⟩
  case refine_1 =>
    simp only [Dag.splice, Spliced.foldl_close _ t.last, foldl_advanceFront wires]
    rw [g.added]
    rfl
  case refine_2 =>
    cases h.gap_cases around on e he
    case inl gap =>
      obtain ⟨l, hl, before, after, a⟩ := gap
      exact h.follows_gap op wires g t hl a
    case inr none => exact h.follows_of_notMem op t he none.1 none.2

end CircuitRouting.Dag
