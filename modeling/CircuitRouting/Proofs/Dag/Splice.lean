import CircuitRouting.Proofs.Dag.Append
import CircuitRouting.Proofs.Except

/-!
# Replacing an operation in place

An operation is cut out of its wires, and the replacement is threaded into the gaps: on each wire its
new nodes stand where the operation stood. Removing an operation is replacing it by nothing.
-/

namespace CircuitRouting

-- A list in which other members stand in the place of `n`.
def replaceAt (n : Nat) (mid l : List Nat) : List Nat :=
  l.flatMap fun m => if m = n then mid else [m]

variable {n m : Nat} {mid l a b : List Nat}

theorem replaceAt_cons (x : Nat) :
    replaceAt n mid (x :: l) = (if x = n then mid else [x]) ++ replaceAt n mid l :=
  List.flatMap_cons

theorem replaceAt_of_notMem (h : n ∉ l) : replaceAt n mid l = l := by
  induction l
  case nil => rfl
  case cons x l hi =>
    simp only [List.mem_cons, not_or] at h
    simp [replaceAt_cons, Ne.symm h.1, hi h.2]

theorem replaceAt_append_cons (ha : n ∉ a) (hb : n ∉ b) :
    replaceAt n mid (a ++ n :: b) = a ++ mid ++ b := by
  have left : replaceAt n mid a = a := replaceAt_of_notMem ha
  have right : replaceAt n mid b = b := replaceAt_of_notMem hb
  simp_all [replaceAt]

theorem mem_replaceAt (h : m ∈ replaceAt n mid l) : m ∈ mid ∨ m ∈ l ∧ m ≠ n := by
  simp only [replaceAt, List.mem_flatMap] at h
  obtain ⟨x, hx, h⟩ := h
  split at h
  case isTrue => exact .inl h
  case isFalse ne =>
    cases List.mem_singleton.mp h
    exact .inr ⟨hx, ne⟩

namespace Dag

variable {d : Dag} {path : Wire → List Nat} {i : Instruction} {w : Wire}

-- A link names the neighbours of a node on a wire: the wire is cut before and after the node.
structure Link.Around (d : Dag) (path : Wire → List Nat) (n : Nat) (l : Link) (e : WireEnds)
    (before after : List Nat) : Prop where
  mem : e ∈ d.wires
  wire : e.wire = l.wire
  path_eq : path e.wire = before ++ n :: after
  pred : l.pred = lastFrom e.input before
  succ : ∃ rest, after ++ [e.output] = l.succ :: rest

theorem Laid.exists_link (h : d.Laid path) (hw : d.hasWire w) (hn : n ∈ path w) :
    ∃ p s, d.predecessor? n w = some p ∧ d.successor? n w = some s ∧
      ∃ e before after, Link.Around d path n ⟨w, p, s⟩ e before after := by
  have ⟨e, he, eq⟩ := hasWire_iff.mp hw
  subst eq
  have ⟨before, after, eq⟩ := List.append_of_mem hn
  have ⟨s, rest, succ⟩ : ∃ s rest, after ++ [e.output] = s :: rest := by
    cases after
    case nil => exact ⟨_, _, rfl⟩
    case cons => exact ⟨_, _, rfl⟩
  have track_eq : track path e = e.input :: (before ++ n :: s :: rest) := by
    rw [track, eq, List.append_assoc, List.cons_append, succ]
  refine ⟨lastFrom e.input before, s, ?_, ?_, e, before, after, he, rfl, eq, rfl, rest, succ⟩
  case refine_1 =>
    rw [h.predecessor?_eq_some_iff he, track_eq, ← List.cons_append, hops_append_cons,
      List.cons_append, hops_cons_concat]
    simp
  case refine_2 =>
    rw [h.successor?_eq_some_iff he, track_eq, ← List.cons_append, hops_append_cons]
    simp

theorem Laid.links_eq (h : d.Laid path) (wires : ∀ w ∈ i.wires, d.hasWire w)
    (on : ∀ w ∈ i.wires, n ∈ path w) :
    ∃ ls, d.links n i = .ok ls ∧ ls.map Link.wire = i.wires ∧
      ∀ l ∈ ls, ∃ e before after, l.Around d path n e before after := by
  unfold links
  revert wires on
  generalize i.wires = ws
  intro wires on
  induction ws
  case nil => exact ⟨[], rfl, rfl, by simp⟩
  case cons w ws hi =>
    have ⟨p, s, pred, succ, around⟩ := h.exists_link (wires w (by simp)) (on w (by simp))
    have ⟨ls, eq, names, all⟩ := hi (fun w hw => wires w (by simp [hw])) fun w hw => on w (by simp [hw])
    refine ⟨⟨w, p, s⟩ :: ls, ?_, by simp [names], ?_⟩
    case refine_1 =>
      rw [List.mapM_cons, eq, pred, succ]
      rfl
    case refine_2 =>
      intro l hl
      cases List.mem_cons.mp hl
      case inl hl => exact hl ▸ around
      case inr hl => exact all l hl

theorem Splice.thread_eq {s : Splice} {p : Nat} (h : s.last.lookup w = some p) (n : Nat) :
    s.thread n w = { s with graph := s.graph.link p n w, last := (w, n) :: s.last } := by
  simp [Splice.thread, h]

-- The nodes `fresh` have been added to the graph `base`.
structure Grafted (base : Graph) (fresh : List (Nat × Instruction)) (s : Splice) : Prop where
  tidy : s.graph.Tidy
  added : s.added = fresh.map Prod.fst
  nodup : (fresh.map Prod.fst).Nodup
  free : ∀ m ∈ fresh.map Prod.fst, base.node? m = none
  new : ∀ x ∈ fresh, s.graph.node? x.1 = some (.op x.2)
  old : ∀ m, m ∉ fresh.map Prod.fst → s.graph.node? m = base.node? m

namespace Grafted

variable {base : Graph} {fresh : List (Nat × Instruction)} {s : Splice}

theorem nextNumber_notMem (h : Grafted base fresh s) :
    s.graph.nextNumber ∉ fresh.map Prod.fst := by
  intro hn
  have ⟨x, hx, eq⟩ := List.mem_map.mp hn
  have node := h.new x hx
  rw [eq, h.tidy.node?_nextNumber] at node
  contradiction

-- A new node is added before it is threaded.
theorem add (h : Grafted base fresh s) (i : Instruction) :
    Grafted base (fresh ++ [(s.graph.nextNumber, i)])
      { s with graph := s.graph.add (.op i), added := s.added ++ [s.graph.nextNumber] } := by
  have node := fun m => h.tidy.node?_add (n := m) (.op i)
  have names : (fresh ++ [(s.graph.nextNumber, i)]).map Prod.fst =
      fresh.map Prod.fst ++ [s.graph.nextNumber] := List.map_append
  refine ⟨h.tidy.add _, names ▸ congrArg (· ++ _) h.added, ?_, ?_, ?_, ?_⟩
  case refine_1 =>
    rw [names]
    refine List.nodup_append.mpr ⟨h.nodup, by simp, ?_⟩
    rintro a ha b hb rfl
    exact h.nextNumber_notMem (List.mem_singleton.mp hb ▸ ha)
  case refine_2 =>
    rw [names]
    refine List.forall_mem_append.mpr ⟨h.free, ?_⟩
    simpa [← h.old _ h.nextNumber_notMem] using h.tidy.node?_nextNumber
  case refine_3 =>
    intro x hx
    rw [node]
    cases List.mem_append.mp hx
    case inl hx =>
      have ne : x.1 ≠ s.graph.nextNumber := fun eq =>
        h.nextNumber_notMem (eq ▸ List.mem_map_of_mem hx)
      rw [if_neg ne]
      exact h.new x hx
    case inr hx => simp [List.mem_singleton.mp hx]
  case refine_4 =>
    intro m hm
    simp only [names, List.mem_append, List.mem_singleton, not_or] at hm
    rw [node, if_neg hm.2]
    exact h.old m hm.1

end Grafted

-- A replacement under way: the nodes `fresh` have been added to the graph `base` and threaded, on each
-- wire, behind the node before the gap.
structure Spliced (base : Graph) (ls : List Link) (mid : Wire → List Nat)
    (fresh : List (Nat × Instruction)) (s : Splice) : Prop where
  tidy : s.graph.Tidy
  added : s.added = fresh.map Prod.fst
  nodup : s.added.Nodup
  free : ∀ m ∈ s.added, base.node? m = none
  new : ∀ x ∈ fresh, s.graph.node? x.1 = some (.op x.2)
  old : ∀ m, m ∉ s.added → s.graph.node? m = base.node? m
  mid_mem : ∀ w, ∀ m ∈ mid w, m ∈ s.added
  mid_nodup : ∀ w, (mid w).Nodup
  last : ∀ l ∈ ls, s.last.lookup l.wire = some (lastFrom l.pred (mid l.wire))
  edges_nodup : s.graph.edges.Nodup
  mem_edges : ∀ x, x ∈ s.graph.edges ↔ x ∈ base.edges ∨
    ∃ l ∈ ls, l.wire = x.wire ∧ (x.source, x.target) ∈ hops (l.pred :: mid l.wire)

namespace Spliced

variable {base : Graph} {ls : List Link} {mid : Wire → List Nat} {fresh : List (Nat × Instruction)}
  {s : Splice}

-- The edges that stay end in nodes that stay, and no wire has two gaps.
structure Gaps (base : Graph) (ls : List Link) : Prop where
  targets : ∀ x ∈ base.edges, (base.node? x.target).isSome
  wires : (ls.map Link.wire).Nodup

theorem start (t : base.Tidy) (nodup : base.edges.Nodup) (gaps : Gaps base ls) :
    Spliced base ls (fun _ => []) [] ⟨base, ls.map fun l => (l.wire, l.pred), []⟩ where
  tidy := t
  added := rfl
  nodup := .nil
  free := by simp
  new := by simp
  old := by simp
  mid_mem := by simp
  mid_nodup := by simp
  last l hl := by
    have wires := gaps.wires
    clear gaps
    induction ls
    case nil => simp at hl
    case cons k ls hi =>
      have ⟨other, rest⟩ := List.nodup_cons.mp wires
      cases List.mem_cons.mp hl
      case inl hl => simp [hl, lastFrom]
      case inr hl =>
        have ne : (l.wire == k.wire) = false := by
          refine beq_false_of_ne fun eq => other ?_
          exact eq ▸ List.mem_map_of_mem hl
        simpa [List.lookup_cons, ne] using hi hl rest
  edges_nodup := nodup
  mem_edges x := by simp

theorem last_thread {l l' : Link} (h : Spliced base ls mid fresh s) (hl' : l' ∈ ls) (n : Nat) :
    ((l.wire, n) :: s.last).lookup l'.wire =
      some (lastFrom l'.pred (Function.update mid l.wire (mid l.wire ++ [n]) l'.wire)) := by
  by_cases eq : l'.wire = l.wire
  case pos => simp [eq, lastFrom]
  case neg =>
    rw [Function.update_of_ne eq]
    simpa [List.lookup_cons, beq_false_of_ne eq] using h.last l' hl'

theorem mem_edges_thread {l : Link} (h : Spliced base ls mid fresh s) (gaps : Gaps base ls)
    (hl : l ∈ ls) (n : Nat) (x : Edge) :
    x ∈ (s.graph.link (lastFrom l.pred (mid l.wire)) n l.wire).edges ↔ x ∈ base.edges ∨
      ∃ l' ∈ ls, l'.wire = x.wire ∧ (x.source, x.target) ∈
        hops (l'.pred :: Function.update mid l.wire (mid l.wire ++ [n]) l'.wire) := by
  obtain ⟨a, b, w⟩ := x
  rw [Graph.edges_link, List.mem_cons, h.mem_edges]
  by_cases eq : w = l.wire
  case pos =>
    subst eq
    rw [exists_key_iff gaps.wires hl, exists_key_iff gaps.wires hl, Function.update_self, hops_cons_concat]
    simp only [Edge.mk.injEq, and_true, List.mem_append, List.mem_singleton, Prod.mk.injEq]
    tauto
  case neg =>
    simp only [Edge.mk.injEq, eq, and_false, false_or]
    refine or_congr_right <| exists_congr fun l' => and_congr_right fun _ =>
      and_congr_right fun hw => ?_
    rw [Function.update_of_ne (hw ▸ eq)]

theorem thread (h : Spliced base ls mid fresh s) (gaps : Gaps base ls) (hw : w ∈ ls.map Link.wire)
    (hn : n ∈ s.added) (new : n ∉ mid w) :
    Spliced base ls (Function.update mid w (mid w ++ [n])) fresh (s.thread n w) := by
  obtain ⟨l, hl, eq⟩ := List.mem_map.mp hw
  subst eq
  have inside : ∀ m ∈ mid l.wire ++ [n], m ∈ s.added :=
    List.forall_mem_append.mpr ⟨h.mid_mem _, by simpa using hn⟩
  have nodup : (mid l.wire ++ [n]).Nodup := by
    refine List.nodup_append.mpr ⟨h.mid_nodup _, by simp, ?_⟩
    rintro a ha b hb rfl
    exact new (List.mem_singleton.mp hb ▸ ha)
  have fresh_edge : ⟨lastFrom l.pred (mid l.wire), n, l.wire⟩ ∉ s.graph.edges := by
    intro mem
    cases (h.mem_edges _).mp mem
    case inl mem => simpa [h.free n hn] using gaps.targets _ mem
    case inr mem =>
      obtain ⟨l', _, hw, hop⟩ := mem
      have hw : l'.wire = l.wire := hw
      exact new (mem_tail_of_mem_hops (hw ▸ hop))
  rw [Splice.thread_eq (h.last l hl)]
  refine ⟨h.tidy.link .., h.added, h.nodup, h.free, h.new, h.old, ?_, ?_,
    fun l' hl' => h.last_thread hl' n, List.nodup_cons.mpr ⟨fresh_edge, h.edges_nodup⟩,
    h.mem_edges_thread gaps hl n⟩
  case refine_1 =>
    exact (Function.forall_update_iff mid fun _ nodes => ∀ m ∈ nodes, m ∈ s.added).mpr
      ⟨inside, fun w _ => h.mid_mem w⟩
  case refine_2 =>
    exact (Function.forall_update_iff mid fun _ nodes => nodes.Nodup).mpr
      ⟨nodup, fun w _ => h.mid_nodup w⟩

theorem threadAll {ws : List Wire} (h : Spliced base ls mid fresh s) (gaps : Gaps base ls)
    (nodup : ws.Nodup) (hws : ∀ w ∈ ws, w ∈ ls.map Link.wire) (hn : n ∈ s.added)
    (new : ∀ w ∈ ws, n ∉ mid w) :
    Spliced base ls (fun w => if w ∈ ws then mid w ++ [n] else mid w) fresh
      (ws.foldl (Splice.thread n) s) := by
  induction ws generalizing s mid
  case nil => simpa using h
  case cons w ws hi =>
    have ⟨other, nodup⟩ := List.nodup_cons.mp nodup
    have h' := h.thread gaps (hws w (by simp)) hn (new w (by simp))
    have added : (s.thread n w).added = s.added := h'.added.trans h.added.symm
    have ne : ∀ w' ∈ ws, w' ≠ w := fun w' hw' eq => other (eq ▸ hw')
    have rest := hi h' nodup (fun w hw => hws w (by simp [hw])) (added ▸ hn) fun w' hw' => by
      rw [Function.update_of_ne (ne w' hw')]
      exact new w' (by simp [hw'])
    have mid_eq : (fun w' => if w' ∈ w :: ws then mid w' ++ [n] else mid w') =
        fun w' => if w' ∈ ws then Function.update mid w (mid w ++ [n]) w' ++ [n]
          else Function.update mid w (mid w ++ [n]) w' := by
      funext w'
      by_cases eq : w' = w
      case pos => simp [eq, other]
      case neg => simp [eq]
    exact mid_eq ▸ rest

theorem grafted (h : Spliced base ls mid fresh s) : Grafted base fresh s where
  tidy := h.tidy
  added := h.added
  nodup := h.added ▸ h.nodup
  free := h.added ▸ h.free
  new := h.new
  old := h.added ▸ h.old

theorem nextNumber_notMem (h : Spliced base ls mid fresh s) : s.graph.nextNumber ∉ s.added :=
  h.added ▸ h.grafted.nextNumber_notMem

theorem add (h : Spliced base ls mid fresh s) (i : Instruction) :
    Spliced base ls mid (fresh ++ [(s.graph.nextNumber, i)])
      { s with graph := s.graph.add (.op i), added := s.added ++ [s.graph.nextNumber] } := by
  have g := h.grafted.add i
  have edges := Graph.edges_add (g := s.graph) (.op i)
  refine ⟨g.tidy, g.added, g.added ▸ g.nodup, g.added ▸ g.free, g.new, g.added ▸ g.old, ?_,
    h.mid_nodup, h.last, edges ▸ h.edges_nodup, fun x => edges ▸ h.mem_edges x⟩
  exact fun w m hm => List.mem_append_left _ (h.mid_mem w m hm)

theorem push (h : Spliced base ls mid fresh s) (gaps : Gaps base ls) (nodup : i.wires.Nodup)
    (allowed : ∀ w ∈ i.wires, w ∈ ls.map Link.wire) :
    ∃ n, Spliced base ls (fun w => if w ∈ i.wires then mid w ++ [n] else mid w) (fresh ++ [(n, i)])
      (s.push i) :=
  ⟨s.graph.nextNumber, (h.add i).threadAll gaps nodup allowed (by simp) fun w _ hw =>
    h.nextNumber_notMem (h.mid_mem w _ hw)⟩

theorem pushAll {is : List Instruction} (fresh : List (Nat × Instruction))
    (h : Spliced base ls (onWire · fresh) fresh s)
    (gaps : Gaps base ls) (nodup : ∀ i ∈ is, i.wires.Nodup)
    (allowed : ∀ i ∈ is, ∀ w ∈ i.wires, w ∈ ls.map Link.wire) :
    ∃ fresh', fresh'.map Prod.snd = fresh.map Prod.snd ++ is ∧
      Spliced base ls (onWire · fresh') fresh' (is.foldl Splice.push s) := by
  induction is generalizing s fresh
  case nil => exact ⟨fresh, by simp, h⟩
  case cons i is hi =>
    have ⟨n, h'⟩ := h.push gaps (nodup i (by simp)) (allowed i (by simp))
    have eq : (fun w => if w ∈ i.wires then onWire w fresh ++ [n] else onWire w fresh) =
        (onWire · (fresh ++ [(n, i)])) := by
      funext w
      by_cases hw : w ∈ i.wires
      case pos => simp [onWire, hw]
      case neg => simp [onWire, hw]
    have ⟨fresh', snd, h'⟩ := hi _ (eq ▸ h') (fun j hj => nodup j (by simp [hj]))
      fun j hj => allowed j (by simp [hj])
    exact ⟨fresh', by simp [snd], h'⟩

-- The edge that ends a wire's part of the replacement.
def closing (last : Link → Nat) (l : Link) : Edge :=
  ⟨last l, l.succ, l.wire⟩

theorem foldl_close (last : Link → Nat) (h : ∀ l ∈ ls, s.last.lookup l.wire = some (last l)) :
    ls.foldl Splice.close s =
      { s with
        graph := { s.graph with edges := (ls.map (closing last)).reverse ++ s.graph.edges } } := by
  induction ls generalizing s
  case nil => rfl
  case cons l ls hi =>
    have eq : s.close l = { s with graph := s.graph.link (last l) l.succ l.wire } := by
      simp [Splice.close, h l (by simp)]
    rw [List.foldl_cons, eq]
    refine (hi ?_).trans ?_
    case refine_1 => exact fun l' hl' => h l' (by simp [hl'])
    case refine_2 => simp [Graph.link, closing]

end Spliced

-- What becomes of the nodes when one of them gives way to new ones; its number may be used again.
structure Replaced (d : Dag) (n : Nat) (fresh : List (Nat × Instruction)) (d' : Dag) : Prop where
  alike : d.Alike d'
  nodup : (fresh.map Prod.fst).Nodup
  free : ∀ m ∈ fresh.map Prod.fst, m = n ∨ d.node? m = none
  new : ∀ x ∈ fresh, d'.node? x.1 = some (.op x.2)
  old : ∀ m, m ∉ fresh.map Prod.fst → d'.node? m = if m = n then none else d.node? m

theorem Laid.isSome_of_mem_track {e : WireEnds} (h : d.Laid path) (he : e ∈ d.wires)
    (hm : m ∈ track path e) : (d.node? m).isSome := by
  simp only [track, List.mem_cons, List.mem_append, List.not_mem_nil, or_false] at hm
  rcases hm with hm | hm | hm
  · simp [hm, h.input e he]
  · obtain ⟨i, hi⟩ := Option.isSome_iff_exists.mp (h.ops e he m hm)
    simp [instruction?_eq_some_iff.mp hi]
  · simp [hm, h.output e he]

namespace Link.Around

variable {l : Link} {e : WireEnds} {before after : List Nat}

theorem hops_track (a : l.Around d path n e before after) : ∃ rest,
    after ++ [e.output] = l.succ :: rest ∧
    hops (track path e) =
      hops (e.input :: before) ++ (l.pred, n) :: (n, l.succ) :: hops (l.succ :: rest) := by
  have ⟨rest, succ⟩ := a.succ
  refine ⟨rest, succ, ?_⟩
  rw [track, a.path_eq, List.append_assoc, List.cons_append, succ, hops_cons_append, ← a.pred]
  rfl

-- The hops that stay are those that do not touch the node.
theorem mem_hops_iff (a : l.Around d path n e before after) (h : d.Laid path) {x y : Nat}
    {rest : List Nat} (succ : after ++ [e.output] = l.succ :: rest) :
    (x, y) ∈ hops (track path e) ∧ x ≠ n ∧ y ≠ n ↔
      (x, y) ∈ hops (e.input :: before) ∨ (x, y) ∈ hops (l.succ :: rest) := by
  obtain ⟨rest', succ', eq⟩ := a.hops_track
  cases succ.symm.trans succ'
  have nodup := h.track_nodup a.mem
  rw [track, a.path_eq, List.append_assoc, List.cons_append, succ, ← List.cons_append,
    List.nodup_append] at nodup
  obtain ⟨_, right, disjoint⟩ := nodup
  obtain ⟨fresh, _⟩ := List.nodup_cons.mp right
  have left : n ∉ e.input :: before := fun hn => disjoint n hn n (by simp) rfl
  rw [eq]
  simp only [List.mem_append, List.mem_cons, Prod.mk.injEq]
  constructor
  case mp =>
    rintro ⟨hop | ⟨-, rfl⟩ | ⟨rfl, -⟩ | hop, hx, hy⟩
    · exact .inl hop
    · contradiction
    · contradiction
    · exact .inr hop
  case mpr =>
    rintro (hop | hop)
    · obtain ⟨hx, hy⟩ := mem_of_mem_hops hop
      exact ⟨.inl hop, fun eq => left (eq ▸ hx), fun eq => left (eq ▸ hy)⟩
    · obtain ⟨hx, hy⟩ := mem_of_mem_hops hop
      exact ⟨.inr (.inr (.inr hop)), fun eq => fresh (eq ▸ hx), fun eq => fresh (eq ▸ hy)⟩

theorem replaceAt_path (a : l.Around d path n e before after) (h : d.Laid path) (mid : List Nat) :
    replaceAt n mid (path e.wire) = before ++ mid ++ after := by
  have nodup := h.nodup e a.mem
  rw [a.path_eq, List.nodup_append, List.nodup_cons] at nodup
  rw [a.path_eq]
  exact replaceAt_append_cons (fun hn => nodup.2.2 n hn n (by simp) rfl) nodup.2.1.1

end Link.Around

-- The graph without the node: what is left of each wire.
theorem Laid.gaps {ls : List Link} (h : d.Laid path) (op : (d.instruction? n).isSome)
    (nodup : (ls.map Link.wire).Nodup) : Spliced.Gaps (d.graph.remove n) ls where
  targets x hx := by
    simp only [Graph.remove, List.mem_filter, Bool.and_eq_true, bne_iff_ne] at hx
    obtain ⟨e, he, _, hop⟩ := (h.mem_edges x).mp hx.1
    rw [Graph.node?_remove (isSome_of_instruction? op), if_neg hx.2.2]
    exact h.isSome_of_mem_track he (mem_of_mem_hops hop).2
  wires := nodup

theorem Laid.mem_remove_edges (h : d.Laid path) {e : WireEnds} (he : e ∈ d.wires) {a b : Nat} :
    ⟨a, b, e.wire⟩ ∈ (d.graph.remove n).edges ↔ (a, b) ∈ hops (track path e) ∧ a ≠ n ∧ b ≠ n := by
  simp [Graph.remove, h.mem_edges_iff he]

-- The wires once a replacement is closed.
namespace Spliced

variable {base : Graph} {ls : List Link} {fresh : List (Nat × Instruction)} {s : Splice} {l : Link}
  {e : WireEnds} {before after : List Nat}

-- The last node of the replacement on a wire, or the node before it.
def lastOf (fresh : List (Nat × Instruction)) (l : Link) : Nat :=
  lastFrom l.pred (onWire l.wire fresh)

theorem hops_track (fresh : List (Nat × Instruction)) (a : l.Around d path n e before after)
    (h : d.Laid path) : ∃ rest, after ++ [e.output] = l.succ :: rest ∧
    hops (track (fun w => replaceAt n (onWire w fresh) (path w)) e) =
      hops (e.input :: before) ++ hops (l.pred :: onWire l.wire fresh) ++
        (lastOf fresh l, l.succ) :: hops (l.succ :: rest) := by
  have ⟨rest, succ⟩ := a.succ
  refine ⟨rest, succ, ?_⟩
  rw [track, a.replaceAt_path h, List.append_assoc, succ, hops_cons_append, hops_cons_append,
    lastFrom_append, ← a.pred, a.wire]
  rfl

theorem mem_closing (gaps : Gaps base ls) (hl : l ∈ ls) {last : Link → Nat} {x y : Nat} :
    ⟨x, y, l.wire⟩ ∈ ls.map (closing last) ↔ x = last l ∧ y = l.succ := by
  simp only [List.mem_map, closing, Edge.mk.injEq]
  constructor
  case mp =>
    intro ⟨l', hl', hx, hy, hw⟩
    rw [List.inj_on_of_nodup_map gaps.wires hl' hl hw] at hx hy
    exact ⟨hx.symm, hy.symm⟩
  case mpr => exact fun ⟨hx, hy⟩ => ⟨l, hl, hx.symm, hy.symm, rfl⟩

theorem mem_edges_iff (spliced : Spliced (d.graph.remove n) ls (onWire · fresh) fresh s)
    (h : d.Laid path) (gaps : Gaps (d.graph.remove n) ls) (hl : l ∈ ls)
    (a : l.Around d path n e before after) {x y : Nat} :
    ⟨x, y, l.wire⟩ ∈ (ls.map (closing (lastOf fresh))).reverse ++ s.graph.edges ↔
      (x, y) ∈ hops (track (fun w => replaceAt n (onWire w fresh) (path w)) e) := by
  have ⟨rest, succ, eq⟩ := hops_track fresh a h
  have base : ⟨x, y, l.wire⟩ ∈ (d.graph.remove n).edges ↔ _ :=
    a.wire ▸ (h.mem_remove_edges a.mem).trans (a.mem_hops_iff h succ)
  rw [eq, List.mem_append, List.mem_reverse, mem_closing gaps hl, spliced.mem_edges, base,
    exists_key_iff gaps.wires hl]
  simp only [List.mem_append, List.mem_cons, Prod.mk.injEq]
  tauto

-- The edge that closes a wire is a new one.
theorem closing_notMem (spliced : Spliced (d.graph.remove n) ls (onWire · fresh) fresh s)
    (h : d.Laid path) (op : (d.instruction? n).isSome) (gaps : Gaps (d.graph.remove n) ls)
    (hl : l ∈ ls) (a : l.Around d path n e before after) :
    closing (lastOf fresh) l ∉ s.graph.edges := by
  intro mem
  have ⟨rest, _, eq⟩ := a.hops_track
  have hop : (n, l.succ) ∈ hops (track path e) := by simp [eq]
  cases (spliced.mem_edges _).mp mem
  case inl mem =>
    rw [closing, ← a.wire] at mem
    have ⟨hop', ne, _⟩ := (h.mem_remove_edges a.mem).mp mem
    exact ne (hops_left_unique (h.track_nodup a.mem) hop' hop)
  case inr mem =>
    have hop' := (exists_key_iff gaps.wires hl).mp mem
    have free := spliced.free _ (spliced.mid_mem _ _ (mem_tail_of_mem_hops hop'))
    have ne : l.succ ≠ n := hops_ne (h.track_nodup a.mem) hop
    have node := h.isSome_of_mem_track a.mem (mem_of_mem_hops hop).2
    rw [Graph.node?_remove (isSome_of_instruction? op)] at free
    simp [closing, ne, show d.graph.node? l.succ = d.node? l.succ from rfl] at free
    simp [free] at node

end Spliced

-- The new front of a wire.
def frontAfter (n : Nat) (ls : List Link) (s : Splice) (e : WireEnds) : Nat :=
  if e.wire ∈ ls.map Link.wire ∧ e.front = n then (s.last.lookup e.wire).getD n else e.front

-- The graph once a replacement is closed.
def closed (d : Dag) (n : Nat) (ls : List Link) (last : Link → Nat) (s : Splice) : Dag :=
  { d with
    graph := { s.graph with edges := (ls.map (Spliced.closing last)).reverse ++ s.graph.edges }
    wires := d.wires.map fun e => { e with front := frontAfter n ls s e } }

theorem foldl_advanceFront {ls : List Link} {s : Splice} (nodup : (ls.map Link.wire).Nodup)
    (wires : List WireEnds) :
    ls.foldl (advanceFront n s) wires =
      wires.map fun e => { e with front := frontAfter n ls s e } := by
  induction ls generalizing wires
  case nil => simp [frontAfter]
  case cons l ls hi =>
    have ⟨other, nodup⟩ := List.nodup_cons.mp nodup
    rw [List.foldl_cons, hi nodup, advanceFront, List.map_map]
    refine List.map_congr_left fun e _ => ?_
    by_cases eq : e.wire = l.wire
    case pos =>
      by_cases front : e.front = n
      case pos => simp [frontAfter, eq, front, other]
      case neg => simp [frontAfter, front]
    case neg => simp [frontAfter, eq]

theorem frontAfter_eq {ls : List Link} {fresh : List (Nat × Instruction)} {s : Splice}
    {l : Link} {e : WireEnds} {before after : List Nat} (h : d.Laid path)
    (spliced : Spliced (d.graph.remove n) ls (onWire · fresh) fresh s) (hl : l ∈ ls)
    (a : l.Around d path n e before after) :
    frontAfter n ls s e =
      lastFrom e.input (replaceAt n (onWire e.wire fresh) (path e.wire)) := by
  have mem : e.wire ∈ ls.map Link.wire := a.wire ▸ List.mem_map_of_mem hl
  have nodup := h.nodup e a.mem
  rw [frontAfter, a.replaceAt_path h, h.front e a.mem, a.path_eq]
  cases after
  case nil =>
    have : s.last.lookup e.wire = _ := a.wire ▸ spliced.last l hl
    rw [if_pos ⟨mem, by simp [lastFrom]⟩, this, Option.getD_some, List.append_nil, lastFrom_append,
      a.pred]
  case cons x after =>
    have ne : lastFrom x after ≠ n := by
      intro eq
      rw [a.path_eq, List.nodup_append, List.nodup_cons] at nodup
      exact nodup.2.1.1 (eq ▸ lastFrom_mem x after)
    simp [lastFrom, ne]

namespace Replaced

variable {fresh : List (Nat × Instruction)} {d' : Dag} {x : Node}

theorem instruction? (r : d.Replaced n fresh d') (hm : m ∈ fresh.map Prod.fst) :
    (d'.instruction? m).isSome := by
  have ⟨x, hx, eq⟩ := List.mem_map.mp hm
  rw [instruction?_eq, ← eq, r.new x hx]
  rfl

-- A new node takes no number but that of the replaced one.
theorem notMem (r : d.Replaced n fresh d') (hm : (d.node? m).isSome) (ne : m ≠ n) :
    m ∉ fresh.map Prod.fst := by
  intro mem
  cases r.free m mem
  case inl eq => exact ne eq
  case inr none => simp [none] at hm

-- A node other than the replaced one stays.
theorem node?_of_ne (r : d.Replaced n fresh d') (hm : d.node? m = some x) (ne : m ≠ n) :
    d'.node? m = some x := by
  rw [r.old m (r.notMem (by simp [hm]) ne), if_neg ne, hm]

-- The ends of wires stay.
theorem node?_iff (r : d.Replaced n fresh d') (op : (d.instruction? n).isSome)
    (notOp : ∀ i, x ≠ .op i) : d'.node? m = some x ↔ d.node? m = some x := by
  constructor
  case mp =>
    intro hm
    have : m ∉ fresh.map Prod.fst := by
      intro mem
      have ⟨y, hy, eq⟩ := List.mem_map.mp mem
      exact notOp y.2 (Option.some.inj (hm.symm.trans (eq ▸ r.new y hy)))
    rw [r.old m this] at hm
    split at hm
    case isTrue => contradiction
    case isFalse => exact hm
  case mpr =>
    intro hm
    refine r.node?_of_ne hm fun eq => ?_
    have ⟨i, hi⟩ := Option.isSome_iff_exists.mp op
    rw [eq, instruction?_eq_some_iff.mp hi] at hm
    exact notOp i (Option.some.inj hm).symm

end Replaced

section Closing

variable {ls : List Link} {fresh : List (Nat × Instruction)} {s : Splice}

-- The graph with the new nodes has replaced the node.
theorem Grafted.replaced {d' : Dag} (g : Grafted (d.graph.remove n) fresh s)
    (op : (d.instruction? n).isSome) (alike : d.Alike d')
    (nodes : ∀ m, d'.node? m = s.graph.node? m) : d.Replaced n fresh d' where
  alike := alike
  nodup := g.nodup
  free m hm := by
    have := g.free m hm
    rw [Graph.node?_remove (isSome_of_instruction? op)] at this
    split at this
    case isTrue eq => exact .inl eq
    case isFalse => exact .inr this
  new x hx := (nodes x.1).trans (g.new x hx)
  old m hm :=
    ((nodes m).trans (g.old m hm)).trans (Graph.node?_remove (isSome_of_instruction? op))

theorem replaced_closed (op : (d.instruction? n).isSome)
    (spliced : Spliced (d.graph.remove n) ls (onWire · fresh) fresh s) :
    d.Replaced n fresh (closed d n ls (Spliced.lastOf fresh) s) :=
  spliced.grafted.replaced op ⟨by simp [closed, wireNames], rfl⟩ fun _ => rfl

-- A wire either has a gap, or does not meet the node and stays as it is.
theorem Laid.gap_cases (h : d.Laid path)
    (around : ∀ l ∈ ls, ∃ e before after, l.Around d path n e before after)
    (on : ∀ e ∈ d.wires, n ∈ path e.wire → e.wire ∈ ls.map Link.wire) :
    ∀ e ∈ d.wires, (∃ l ∈ ls, ∃ before after, l.Around d path n e before after) ∨
      (e.wire ∉ ls.map Link.wire ∧ n ∉ path e.wire) := by
  intro e he
  by_cases hw : e.wire ∈ ls.map Link.wire
  case pos =>
    have ⟨l, hl, eq⟩ := List.mem_map.mp hw
    have ⟨e', before, after, a⟩ := around l hl
    cases h.ends_unique a.mem he (a.wire.trans eq)
    exact .inl ⟨l, hl, before, after, a⟩
  case neg => exact .inr ⟨hw, fun hn => hw (on e he hn)⟩

-- The new nodes of a wire are none of the old ones.
theorem Laid.nodup_replaceAt {e : WireEnds} (h : d.Laid path) (he : e ∈ d.wires)
    {mid : List Nat} (nodup : mid.Nodup) (free : ∀ m ∈ mid, m = n ∨ d.node? m = none) :
    (replaceAt n mid (path e.wire)).Nodup := by
  by_cases hn : n ∈ path e.wire
  case neg =>
    rw [replaceAt_of_notMem hn]
    exact h.nodup e he
  case pos =>
    have ⟨before, after, eq⟩ := List.append_of_mem hn
    have all := h.nodup e he
    have old : ∀ m ∈ path e.wire, m ∈ mid → m = n := by
      intro m hm hmid
      refine (free m hmid).resolve_right fun none => ?_
      have op := h.ops e he m hm
      simp [instruction?_eq, none] at op
    rw [eq] at all old ⊢
    have ⟨nodup₁, right, disjoint⟩ := List.nodup_append.mp all
    have ⟨fresh, nodup₂⟩ := List.nodup_cons.mp right
    have fresh₁ : n ∉ before := fun hn => disjoint n hn n (by simp) rfl
    rw [replaceAt_append_cons fresh₁ fresh]
    refine List.nodup_append.mpr ⟨List.nodup_append.mpr ⟨nodup₁, nodup, ?_⟩, nodup₂, ?_⟩
    case refine_1 =>
      rintro a ha b hb rfl
      exact fresh₁ (old a (by simp [ha]) hb ▸ ha)
    case refine_2 =>
      rintro a ha b hb rfl
      cases List.mem_append.mp ha
      case inl ha => exact disjoint a ha a (by simp [hb]) rfl
      case inr ha => exact fresh (old a (by simp [hb]) ha ▸ hb)

theorem Laid.nodup_closed (h : d.Laid path) (op : (d.instruction? n).isSome)
    (gaps : Spliced.Gaps (d.graph.remove n) ls)
    (around : ∀ l ∈ ls, ∃ e before after, l.Around d path n e before after)
    (spliced : Spliced (d.graph.remove n) ls (onWire · fresh) fresh s) :
    (closed d n ls (Spliced.lastOf fresh) s).graph.edges.Nodup := by
  refine List.nodup_append.mpr ⟨List.nodup_reverse.mpr ?_, spliced.edges_nodup, ?_⟩
  case refine_1 =>
    refine List.Nodup.of_map Edge.wire ?_
    simpa [Spliced.closing, Function.comp_def] using gaps.wires
  case refine_2 =>
    rintro x hx y hy rfl
    have ⟨l, hl, eq⟩ := List.mem_map.mp (List.mem_reverse.mp hx)
    have ⟨e, before, after, a⟩ := around l hl
    exact spliced.closing_notMem h op gaps hl a (eq ▸ hy)

theorem Laid.mem_edges_closed {e : WireEnds} (h : d.Laid path) (he : e ∈ d.wires)
    (gaps : Spliced.Gaps (d.graph.remove n) ls)
    (op : (d.instruction? n).isSome)
    (around : ∀ l ∈ ls, ∃ e before after, l.Around d path n e before after)
    (on : ∀ e ∈ d.wires, n ∈ path e.wire → e.wire ∈ ls.map Link.wire)
    (spliced : Spliced (d.graph.remove n) ls (onWire · fresh) fresh s) (a b : Nat) :
    ⟨a, b, e.wire⟩ ∈ (closed d n ls (Spliced.lastOf fresh) s).graph.edges ↔
      (a, b) ∈ hops (track (fun w => replaceAt n (onWire w fresh) (path w)) e) := by
  cases h.gap_cases around on e he
  case inl gap =>
    obtain ⟨l, hl, before, after, ar⟩ := gap
    rw [ar.wire]
    exact spliced.mem_edges_iff h gaps hl ar
  case inr none =>
    obtain ⟨hw, hn⟩ := none
    have track_eq : track (fun w => replaceAt n (onWire w fresh) (path w)) e =
        track path e := by
      simp only [track, replaceAt_of_notMem hn]
    have untouched : (a, b) ∈ hops (track path e) → a ≠ n ∧ b ≠ n := by
      intro hop
      obtain ⟨ha, hb⟩ := mem_of_mem_hops hop
      have out := (h.mem_track_iff he op).not.mpr hn
      exact ⟨fun eq => out (eq ▸ ha), fun eq => out (eq ▸ hb)⟩
    have notClosing : ⟨a, b, e.wire⟩ ∉ ls.map (Spliced.closing (Spliced.lastOf fresh)) := by
      intro mem
      obtain ⟨l, hl, eq⟩ := List.mem_map.mp mem
      exact hw (List.mem_map.mpr ⟨l, hl, congrArg Edge.wire eq⟩)
    have notNew : ¬∃ l ∈ ls, l.wire = e.wire ∧
        (a, b) ∈ hops (l.pred :: onWire l.wire fresh) := by
      rintro ⟨l, hl, eq, _⟩
      exact hw (List.mem_map.mpr ⟨l, hl, eq⟩)
    rw [track_eq, closed, List.mem_append, List.mem_reverse, spliced.mem_edges,
      h.mem_remove_edges he]
    simp only [notClosing, notNew, false_or, or_false]
    exact ⟨And.left, fun hop => ⟨hop, untouched hop⟩⟩

theorem Laid.exists_wire_of_mem_closed (h : d.Laid path)
    (around : ∀ l ∈ ls, ∃ e before after, l.Around d path n e before after)
    (spliced : Spliced (d.graph.remove n) ls (onWire · fresh) fresh s) {x : Edge}
    (hx : x ∈ (closed d n ls (Spliced.lastOf fresh) s).graph.edges) :
    ∃ e ∈ d.wires, e.wire = x.wire := by
  have of_link : ∀ l ∈ ls, ∃ e ∈ d.wires, e.wire = l.wire := fun l hl =>
    have ⟨e, _, _, a⟩ := around l hl
    ⟨e, a.mem, a.wire⟩
  cases List.mem_append.mp hx
  case inl hx =>
    have ⟨l, hl, eq⟩ := List.mem_map.mp (List.mem_reverse.mp hx)
    exact eq ▸ of_link l hl
  case inr hx =>
    cases (spliced.mem_edges x).mp hx
    case inl hx =>
      have ⟨e, he, eq, _⟩ := (h.mem_edges x).mp (List.mem_filter.mp hx).1
      exact ⟨e, he, eq⟩
    case inr hx =>
      have ⟨l, hl, eq, _⟩ := hx
      exact eq ▸ of_link l hl

-- What is spliced in and closed lies, on each wire, where the operation lay.
theorem Laid.closed (h : d.Laid path) (op : (d.instruction? n).isSome)
    (nodup : (ls.map Link.wire).Nodup)
    (around : ∀ l ∈ ls, ∃ e before after, l.Around d path n e before after)
    (on : ∀ e ∈ d.wires, n ∈ path e.wire → e.wire ∈ ls.map Link.wire)
    (spliced : Spliced (d.graph.remove n) ls (onWire · fresh) fresh s) :
    (closed d n ls (Spliced.lastOf fresh) s).Laid
      fun w => replaceAt n (onWire w fresh) (path w) := by
  have gaps := h.gaps op nodup
  have r := replaced_closed op spliced
  have new : ∀ w, ∀ m ∈ onWire w fresh, m ∈ fresh.map Prod.fst :=
    fun w m hm => spliced.added ▸ spliced.mid_mem w m hm
  refine h.revise (frontAfter n ls s) (spliced.tidy.congr rfl rfl) rfl
    (fun m w => r.node?_iff op (by simp)) (fun m w => r.node?_iff op (by simp)) ?_ ?_ ?_
    (h.nodup_closed op gaps around spliced) ?_
  case refine_1 =>
    intro e he m hm
    cases mem_replaceAt hm
    case inl hm => exact r.instruction? (new _ m hm)
    case inr hm =>
      have ⟨i, hi⟩ := Option.isSome_iff_exists.mp (h.ops e he m hm.1)
      rw [instruction?_eq, r.node?_of_ne (instruction?_eq_some_iff.mp hi) hm.2]
      rfl
  case refine_2 =>
    exact fun e he => h.nodup_replaceAt he (spliced.mid_nodup _) fun m hm => r.free m (new _ m hm)
  case refine_3 =>
    intro e he
    cases h.gap_cases around on e he
    case inl gap =>
      have ⟨l, hl, before, after, a⟩ := gap
      exact frontAfter_eq h spliced hl a
    case inr none =>
      rw [replaceAt_of_notMem none.2, frontAfter, if_neg fun h => none.1 h.1, h.front e he]
  case refine_4 =>
    intro ⟨a, b, w⟩
    constructor
    case mp =>
      intro hx
      have ⟨e, he, eq⟩ := h.exists_wire_of_mem_closed around spliced hx
      cases eq
      exact ⟨e, he, rfl, (h.mem_edges_closed he gaps op around on spliced a b).mp hx⟩
    case mpr =>
      intro ⟨e, he, eq, hop⟩
      cases eq
      exact (h.mem_edges_closed he gaps op around on spliced a b).mpr hop

end Closing

-- The graph with an operation replaced by others on its wires.
theorem Laid.splice {ls : List Link} (h : d.Laid path) (is : List Instruction)
    (op : (d.instruction? n).isSome) (nodup : (ls.map Link.wire).Nodup)
    (around : ∀ l ∈ ls, ∃ e before after, l.Around d path n e before after)
    (on : ∀ e ∈ d.wires, n ∈ path e.wire → e.wire ∈ ls.map Link.wire)
    (wires : ∀ i ∈ is, i.wires.Nodup) (allowed : ∀ i ∈ is, ∀ w ∈ i.wires, w ∈ ls.map Link.wire) :
    ∃ fresh d', d.splice n ls is = (fresh.map Prod.fst, d') ∧ fresh.map Prod.snd = is ∧
      d.Replaced n fresh d' ∧ d'.Laid fun w => replaceAt n (onWire w fresh) (path w) := by
  have gaps := h.gaps op nodup
  have nodup_edges : (d.graph.remove n).edges.Nodup := h.edges_nodup.filter _
  have start := Spliced.start (h.tidy.remove (isSome_of_instruction? op)) nodup_edges gaps
  have ⟨fresh, snd, spliced⟩ := Spliced.pushAll [] start gaps wires allowed
  refine ⟨fresh, _, ?_, snd, replaced_closed op spliced, h.closed op nodup around on spliced⟩
  simp only [Dag.splice, Spliced.foldl_close _ spliced.last, foldl_advanceFront nodup]
  rw [spliced.added]
  rfl

-- A replacement that is valid on the wires of an operation takes its place.
theorem Laid.substitute {is : List Instruction} (h : d.Laid path) (op : d.instruction? n = some i)
    (nodup : i.wires.Nodup) (exist : ∀ w ∈ i.wires, d.hasWire w)
    (on : ∀ e ∈ d.wires, n ∈ path e.wire ↔ e.wire ∈ i.wires)
    (fits : ∀ j ∈ is, d.Fits j ∧ j.clbits.Nodup) (allowed : ∀ j ∈ is, ∀ w ∈ j.wires, w ∈ i.wires) :
    ∃ fresh d', d.substitute n is = .ok (fresh.map Prod.fst, d') ∧ fresh.map Prod.snd = is ∧
      d.Replaced n fresh d' ∧ d'.Laid fun w => replaceAt n (onWire w fresh) (path w) := by
  have ⟨ls, links, names, around⟩ := h.links_eq exist fun w hw =>
    have ⟨e, he, eq⟩ := hasWire_iff.mp (exist w hw)
    eq ▸ (on e he).mpr (eq ▸ hw)
  have check : is.forM (d.checkReplacement i.wires) = .ok () := by
    refine forM_eq_ok_iff.mpr fun j hj => ?_
    have found : (j.wires.find? fun w => !i.wires.contains w) = none := by
      simpa using allowed j hj
    rw [checkReplacement, validate_eq_ok_iff.mpr (fits j hj).1, found]
    rfl
  have ⟨fresh, d', eq, snd, r, laid⟩ := h.splice is (by simp [op]) (names ▸ nodup) around
    (fun e he hn => names ▸ (on e he).mp hn) (fun j hj => (fits j hj).1.wires_nodup (fits j hj).2)
    (fun j hj w hw => names ▸ allowed j hj w hw)
  refine ⟨fresh, d', ?_, snd, r, laid⟩
  simp only [Dag.substitute, op, check, links]
  rw [← eq]
  rfl

-- A wire is listed once, so that only one front moves.
theorem rejoin_eq {l : Link} {s : Splice} (wires : d.wireNames.Nodup)
    (last : s.last.lookup l.wire = some l.pred) :
    rejoin n d l =
      { d with
        graph := d.graph.link l.pred l.succ l.wire
        wires := advanceFront n s d.wires l } := by
  simp only [rejoin, advanceFront, last, Option.getD_some]
  cases found : d.ends? l.wire
  case none =>
    have other : ∀ e ∈ d.wires, e.wire ≠ l.wire := by
      simpa [ends?] using found
    simp only
    congr 1
    refine ((List.map_congr_left fun e he => ?_).trans (List.map_id _)).symm
    simp [other e he]
  case some e =>
    obtain ⟨he, wire⟩ := (find?_key_eq_some_iff wires).mp found
    have unique : ∀ e' ∈ d.wires, e'.wire = l.wire → e' = e := fun e' he' eq =>
      List.inj_on_of_nodup_map wires he' he (eq.trans wire.symm)
    simp only [setFront]
    split
    case isTrue front =>
      congr 1
      refine List.map_congr_left fun e' he' => ?_
      by_cases eq : e'.wire = l.wire
      case pos => simp [unique e' he' eq, wire, front]
      case neg => simp [eq]
    case isFalse front =>
      congr 1
      refine ((List.map_congr_left fun e' he' => ?_).trans (List.map_id _)).symm
      by_cases eq : e'.wire = l.wire
      case pos => simp [unique e' he' eq, front]
      case neg => simp [eq]

theorem foldl_rejoin {ls : List Link} {s : Splice} (wires : d.wireNames.Nodup)
    (nodup : (ls.map Link.wire).Nodup) (last : ∀ l ∈ ls, s.last.lookup l.wire = some l.pred) :
    ls.foldl (rejoin n) d =
      { d with
        graph := { d.graph with edges := (ls.map (Spliced.closing Link.pred)).reverse ++ d.graph.edges }
        wires := ls.foldl (advanceFront n s) d.wires } := by
  induction ls generalizing d
  case nil => rfl
  case cons l ls hi =>
    have ⟨_, nodup⟩ := List.nodup_cons.mp nodup
    rw [List.foldl_cons, rejoin_eq wires (last l (by simp))]
    refine (hi ?_ nodup fun l' hl' => last l' (by simp [hl'])).trans ?_
    case refine_1 =>
      rw [wireNames, advanceFront, List.map_map]
      refine (List.map_congr_left fun e _ => ?_) ▸ wires
      simp only [Function.comp]
      split <;> rfl
    case refine_2 => simp [Graph.link, Spliced.closing]

-- Removing an operation is replacing it by nothing.
theorem Laid.removeOp (h : d.Laid path) (op : d.instruction? n = some i)
    (nodup : i.wires.Nodup) (exist : ∀ w ∈ i.wires, d.hasWire w)
    (on : ∀ e ∈ d.wires, n ∈ path e.wire ↔ e.wire ∈ i.wires) :
    ∃ d', d.removeOp n = .ok (i, d') ∧ d.substitute n [] = .ok ([], d') := by
  have ⟨ls, links, names, _⟩ := h.links_eq exist fun w hw =>
    have ⟨e, he, eq⟩ := hasWire_iff.mp (exist w hw)
    eq ▸ (on e he).mpr (eq ▸ hw)
  have isOp : (d.instruction? n).isSome := op ▸ rfl
  have gaps := h.gaps isOp (names ▸ nodup)
  have start := Spliced.start (h.tidy.remove (isSome_of_instruction? isOp))
    (h.edges_nodup.filter _) gaps
  refine ⟨_, by simp only [Dag.removeOp, instruction?_eq_some_iff.mp op, links]; rfl, ?_⟩
  have wires : Dag.wireNames { d with graph := d.graph.remove n } = d.wireNames := rfl
  rw [foldl_rejoin (wires ▸ h.wires) gaps.wires start.last]
  have spliced : d.substitute n [] = .ok (d.splice n ls []) := by
    simp only [Dag.substitute, op, links]
    rfl
  rw [spliced, Dag.splice, List.foldl_nil, Spliced.foldl_close Link.pred start.last,
    foldl_advanceFront gaps.wires, foldl_advanceFront gaps.wires]
  rfl

end Dag

end CircuitRouting
