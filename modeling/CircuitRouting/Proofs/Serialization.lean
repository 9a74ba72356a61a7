import CircuitRouting.CouplingMap.Basic
import CircuitRouting.Proofs.Layout.Tables
import Mathlib.Data.List.Dedup
import Mathlib.Data.List.Sort

/-!
# What is written down and read again

A coupling map is written as an adjacency, from which the same map is read. An adjacency is read exactly if
it has no loop and no index that is too large, and then it is written again in full: with every qubit as a
control and the targets in order. A layout is written as its pairs, from which the same tables are made.
-/

namespace CircuitRouting

namespace CouplingMap

variable {m m' : CouplingMap} {A : List (Nat × List Nat)} {ts : List Nat} {a b c n q : Nat}

-- An adjacency that lists each control once.
abbrev Mapping (A : List (Nat × List Nat)) : Prop := (A.map Prod.fst).Nodup

-- The indices of an adjacency.
def mentioned (A : List (Nat × List Nat)) : List Nat := A.flatMap fun (c, ts) => c :: ts

-- One past the largest index.
def extent (A : List (Nat × List Nat)) : Nat := (mentioned A).foldr (fun q n => max (q + 1) n) 0

def targets (A : List (Nat × List Nat)) (q : Nat) : List Nat := (A.lookup q).getD []

-- The adjacency with an entry for every qubit and each list of targets sorted, without repetition.
def completed (A : List (Nat × List Nat)) : List (Nat × List Nat) :=
  (List.range (extent A)).map fun q => (q, (targets A q).dedup.insertionSort (· ≤ ·))

theorem extent_le_iff : extent A ≤ n ↔ ∀ q ∈ mentioned A, q < n := by
  rw [extent]
  induction mentioned A
  case nil => simp
  case cons q qs hi => rw [List.foldr_cons, Nat.max_le, Nat.succ_le_iff, hi, List.forall_mem_cons]

theorem lt_extent (h : q ∈ mentioned A) : q < extent A :=
  extent_le_iff.mp le_rfl q h

theorem forall_mentioned_iff {p : Nat → Prop} :
    (∀ q ∈ mentioned A, p q) ↔ ∀ x ∈ A, p x.1 ∧ ∀ t ∈ x.2, p t := by
  simp only [mentioned, List.forall_mem_flatMap, List.forall_mem_cons]

namespace Mapping

theorem lookup_eq_some_iff (h : Mapping A) : A.lookup c = some ts ↔ (c, ts) ∈ A := by
  rw [List.lookup_eq_some_iff]
  constructor
  case mp =>
    rintro ⟨_, _, rfl, _⟩
    simp
  case mpr =>
    intro mem
    have ⟨l, r, eq⟩ := List.append_of_mem mem
    refine ⟨l, r, eq, fun x hx => ?_⟩
    rw [Mapping, eq, List.map_append, List.nodup_append] at h
    exact bne_iff_ne.mpr (h.2.2 _ (List.mem_map_of_mem hx) c (by simp)).symm

theorem mem_targets_iff (h : Mapping A) : b ∈ targets A a ↔ ∃ ts, (a, ts) ∈ A ∧ b ∈ ts := by
  simp only [← h.lookup_eq_some_iff, targets]
  cases A.lookup a <;> simp

theorem mem_sortAdjacency (h : Mapping A) {x : Nat × List Nat} : x ∈ sortAdjacency A ↔ x ∈ A := by
  have latest : Mapping A.reverse := by
    rw [Mapping, List.map_reverse, List.nodup_reverse]
    exact h
  simp only [sortAdjacency, List.mem_map, natLt_separating.mem_sortUnique]
  constructor
  case mp =>
    rintro ⟨_, ⟨⟨c, ts⟩, mem, rfl⟩, rfl⟩
    rw [latest.lookup_eq_some_iff.mpr (List.mem_reverse.mpr mem)]
    exact mem
  case mpr =>
    intro mem
    refine ⟨x.1, ⟨x, mem, rfl⟩, ?_⟩
    rw [latest.lookup_eq_some_iff.mpr (List.mem_reverse.mpr mem)]
    rfl

end Mapping

-- Maps of the same size with the same edges are the same.
theorem ext_edges (size : m.numQubits = m'.numQubits) (edges : ∀ e, e ∈ m.edges ↔ e ∈ m'.edges) :
    m = m' := by
  have same := pairLt_separating.eq_of_mem_iff m.sorted m'.sorted edges
  cases m
  cases m'
  cases size
  cases same
  rfl

theorem edgeError?_eq_none_iff {e : Nat × Nat} :
    edgeError? n e = none ↔ e.1 < n ∧ e.2 < n ∧ e.1 ≠ e.2 := by
  refine ⟨inside_of_edgeError?, fun ⟨first, second, ne⟩ => ?_⟩
  rw [edgeError?, if_neg ne, if_neg (by omega)]

theorem mem_edges_build {edges : List (Nat × Nat)} (inside : ∀ e ∈ edges, e.1 < n ∧ e.2 < n ∧ e.1 ≠ e.2)
    {e : Nat × Nat} : e ∈ (build n edges inside).edges ↔ e ∈ edges :=
  pairLt_separating.mem_sortUnique

theorem ofEdges_eq_ok_iff {edges : List (Nat × Nat)} : ofEdges n edges = .ok m ↔
    n ≤ maxQubits ∧ (∀ e ∈ edges, e.1 < n ∧ e.2 < n ∧ e.1 ≠ e.2) ∧ m.numQubits = n ∧
      ∀ e, e ∈ m.edges ↔ e ∈ edges := by
  rw [ofEdges]
  split
  case isTrue large =>
    simp only [reduceCtorEq, false_iff, not_and]
    omega
  case isFalse fits =>
    split
    case h_1 e found =>
      have ⟨e, mem, wrong⟩ := List.exists_of_findSome?_eq_some found
      simp only [reduceCtorEq, false_iff, not_and]
      intro _ inside
      simp [edgeError?_eq_none_iff.mpr (inside e mem)] at wrong
    case h_2 found =>
      have inside := fun e he => edgeError?_eq_none_iff.mp (List.findSome?_eq_none_iff.mp found e he)
      rw [Except.ok.injEq]
      constructor
      case mp =>
        rintro rfl
        exact ⟨not_lt.mp fits, inside, rfl, fun _ => mem_edges_build inside⟩
      case mpr =>
        intro ⟨_, _, size, same⟩
        exact ext_edges size.symm fun e => (mem_edges_build inside).trans (same e).symm

theorem extent_eq (A : List (Nat × List Nat)) : extent A = (largestIndex? A).elim 0 (· + 1) := by
  refine eq_of_forall_ge_iff fun n => ?_
  rw [extent_le_iff]
  cases largest : largestIndex? A
  case none =>
    have none : mentioned A = [] := List.max?_eq_none_iff.mp largest
    simp [none]
  case some l =>
    have ⟨mem, above⟩ := List.max?_eq_some_iff.mp largest
    exact ⟨fun below => below l mem, fun lt q hq => (above q hq).trans_lt lt⟩

-- The targets that are written for a control.
def written (m : CouplingMap) (a : Nat) : List Nat :=
  m.edges.filterMap fun (c, t) => if c = a then some t else none

theorem adjacency_eq (m : CouplingMap) :
    m.adjacency = (List.range m.numQubits).map fun q => (q, m.written q) := rfl

theorem mem_written : b ∈ m.written a ↔ (a, b) ∈ m.edges := by
  simp [written]

theorem pairwise_written (m : CouplingMap) (a : Nat) : (m.written a).Pairwise (natLt · ·) := by
  refine List.pairwise_filterMap.mpr (m.sorted.imp fun {e e'} lt t ht t' ht' => ?_)
  simp only [Option.ite_none_right_eq_some, Option.some.injEq] at ht ht'
  have := pairLt_iff.mp lt
  simp only [natLt, decide_eq_true_eq]
  omega

-- The pairs that are read from an adjacency.
def edgesOf (A : List (Nat × List Nat)) : List (Nat × Nat) :=
  (sortAdjacency A).flatMap fun (c, ts) => ts.map (c, ·)

namespace Mapping

theorem mem_edgesOf (h : Mapping A) : (a, b) ∈ edgesOf A ↔ b ∈ targets A a := by
  simp [edgesOf, h.mem_sortAdjacency, h.mem_targets_iff]

theorem extent_sortAdjacency (h : Mapping A) : extent (sortAdjacency A) = extent A := by
  refine eq_of_forall_ge_iff fun n => ?_
  simp only [extent_le_iff, forall_mentioned_iff, h.mem_sortAdjacency]

-- An index that does not fit is refused for the size of the device anyway.
theorem ofAdjacency_eq_ok_iff_ofEdges (h : Mapping A) :
    ofAdjacency A = .ok m ↔ ofEdges (extent A) (edgesOf A) = .ok m := by
  rw [← h.extent_sortAdjacency, extent_eq, ofAdjacency]
  cases largest : largestIndex? (sortAdjacency A)
  case none => rfl
  case some q =>
    simp only [Option.elim_some]
    split
    case isTrue large =>
      simp [ofEdges_eq_ok_iff, maxQubits, UInt32.size] at large ⊢
      omega
    case isFalse => rfl

-- Only a loop can be wrong with the edges, as all indices are below the extent.
theorem inside_edgesOf_iff (h : Mapping A) :
    (∀ e ∈ edgesOf A, e.1 < extent A ∧ e.2 < extent A ∧ e.1 ≠ e.2) ↔ ∀ x ∈ A, x.1 ∉ x.2 := by
  constructor
  case mp =>
    intro inside x mem loop
    have edge : (x.1, x.1) ∈ edgesOf A := h.mem_edgesOf.mpr (h.mem_targets_iff.mpr ⟨x.2, mem, loop⟩)
    exact (inside _ edge).2.2 rfl
  case mpr =>
    intro loopless (a, b) edge
    have ⟨ts, mem, target⟩ := h.mem_targets_iff.mp (h.mem_edgesOf.mp edge)
    have ⟨control, below⟩ := forall_mentioned_iff.mp (fun q => lt_extent) _ mem
    exact ⟨control, below b target, fun loop => loopless _ mem (loop ▸ target)⟩

theorem ofAdjacency_eq_ok_iff (h : Mapping A) : ofAdjacency A = .ok m ↔
    extent A ≤ maxQubits ∧ (∀ x ∈ A, x.1 ∉ x.2) ∧ m.numQubits = extent A ∧
      ∀ a b, (a, b) ∈ m.edges ↔ b ∈ targets A a := by
  rw [h.ofAdjacency_eq_ok_iff_ofEdges, ofEdges_eq_ok_iff, h.inside_edgesOf_iff]
  simp only [Prod.forall, h.mem_edgesOf]

theorem exists_ofAdjacency_iff (h : Mapping A) : (∃ m, ofAdjacency A = .ok m) ↔
    (∀ x ∈ A, x.1 ∉ x.2) ∧ ∀ q ∈ mentioned A, q < maxQubits := by
  rw [← extent_le_iff]
  constructor
  case mp =>
    intro ⟨m, read⟩
    have ⟨small, loopless, _⟩ := h.ofAdjacency_eq_ok_iff.mp read
    exact ⟨loopless, small⟩
  case mpr =>
    intro ⟨loopless, small⟩
    have made := fun a b => mem_edges_build (h.inside_edgesOf_iff.mpr loopless) (e := (a, b))
    exact ⟨_, h.ofAdjacency_eq_ok_iff.mpr ⟨small, loopless, rfl, fun a b => (made a b).trans h.mem_edgesOf⟩⟩

-- What is read is written in full.
theorem adjacency_of_ofAdjacency (h : Mapping A) (read : ofAdjacency A = .ok m) :
    m.adjacency = completed A := by
  have ⟨_, _, size, edges⟩ := h.ofAdjacency_eq_ok_iff.mp read
  rw [adjacency_eq, completed, size]
  refine List.map_congr_left fun q _ => congrArg (Prod.mk q) ?_
  refine natLt_separating.eq_of_mem_iff (m.pairwise_written q) ?_ fun t => ?_
  case refine_1 =>
    have once := (List.perm_insertionSort (· ≤ ·) _).nodup_iff.mpr (List.nodup_dedup (targets A q))
    exact ((List.pairwise_insertionSort (· ≤ ·) _).and once).imp fun ⟨le, ne⟩ =>
      decide_eq_true (le.lt_of_ne ne)
  case refine_2 => rw [mem_written, edges, List.mem_insertionSort, List.mem_dedup]

end Mapping

theorem mapping_adjacency (m : CouplingMap) : Mapping m.adjacency := by
  simp [Mapping, adjacency, Function.comp_def, List.nodup_range]

-- Every qubit is written, also one without an edge.
theorem extent_adjacency (m : CouplingMap) : extent m.adjacency = m.numQubits := by
  refine eq_of_forall_ge_iff fun n => ?_
  rw [extent_le_iff, forall_mentioned_iff, adjacency_eq]
  simp only [List.forall_mem_map, List.mem_range]
  constructor
  case mp =>
    intro below
    by_contra! large
    exact (below n large).1.false
  case mpr =>
    intro le q lt
    refine ⟨lt.trans_le le, fun t ht => ?_⟩
    exact (m.inside _ (mem_written.mp ht)).2.1.trans_le le

theorem mem_targets_adjacency (m : CouplingMap) : b ∈ targets m.adjacency a ↔ (a, b) ∈ m.edges := by
  rw [m.mapping_adjacency.mem_targets_iff, adjacency_eq]
  constructor
  case mp =>
    rintro ⟨ts, mem, target⟩
    have ⟨_, _, eq⟩ := List.mem_map.mp mem
    cases eq
    exact mem_written.mp target
  case mpr =>
    intro edge
    have control := (m.inside _ edge).1
    exact ⟨_, List.mem_map.mpr ⟨a, List.mem_range.mpr control, rfl⟩, mem_written.mpr edge⟩

theorem ofAdjacency_adjacency (m : CouplingMap) (small : m.numQubits ≤ maxQubits) :
    ofAdjacency m.adjacency = .ok m := by
  refine m.mapping_adjacency.ofAdjacency_eq_ok_iff.mpr ⟨?_, ?_, m.extent_adjacency.symm, ?_⟩
  case refine_1 => rwa [m.extent_adjacency]
  case refine_2 =>
    intro (q, ts) mem loop
    have edge := m.mem_targets_adjacency.mp (m.mapping_adjacency.mem_targets_iff.mpr ⟨ts, mem, loop⟩)
    exact (m.inside _ edge).2.2 rfl
  case refine_3 => exact fun a b => m.mem_targets_adjacency.symm

end CouplingMap

namespace Layout

variable {lay lay' : Layout} {l p : Nat} {ps : List (Nat × Nat)}

theorem placeNew_of_free (logical : lay.physical? l = none) (physical : lay.logical? p = none) :
    lay.placeNew l p = .ok (lay.place l p) := by
  simp [placeNew, logical, physical]

-- On a free place a qubit is added to the others.
theorem physical?_place_iff_of_free (logical : lay.physical? l = none) (physical : lay.logical? p = none)
    {l' p' : Nat} : (lay.place l p).physical? l' = some p' ↔
      (l', p') = (l, p) ∨ lay.physical? l' = some p' := by
  rw [physical?_place_eq_some_iff, Prod.mk.injEq]
  refine or_congr_right ⟨fun h => h.2.2, fun found => ⟨?_, ?_, found⟩⟩
  case refine_1 =>
    rintro rfl
    simp [logical] at found
  case refine_2 =>
    rintro rfl
    simp [logical?_eq_some_iff.mpr found] at physical

-- Pairs that share no qubit, with each other and with what is placed, are placed one after the other.
theorem exists_foldlM_placeNew (logical : (ps.map Prod.fst).Nodup) (physical : (ps.map Prod.snd).Nodup)
    (free : ∀ x ∈ ps, lay.physical? x.1 = none ∧ lay.logical? x.2 = none) :
    ∃ lay', ps.foldlM (fun lay (l, p) => lay.placeNew l p) lay = .ok lay' ∧
      ∀ l p, lay'.physical? l = some p ↔ lay.physical? l = some p ∨ (l, p) ∈ ps := by
  induction ps generalizing lay
  case nil => exact ⟨lay, rfl, by simp⟩
  case cons x ps hi =>
    obtain ⟨l, p⟩ := x
    have ⟨⟨logicalFree, physicalFree⟩, free⟩ := List.forall_mem_cons.mp free
    have ⟨logicalNew, logical⟩ := List.nodup_cons.mp logical
    have ⟨physicalNew, physical⟩ := List.nodup_cons.mp physical
    have ⟨lay', made, all⟩ := @hi (lay.place l p) logical physical fun y hy => by
      have ⟨first, second⟩ := free y hy
      have logicalNe : y.1 ≠ l := ne_of_mem_of_not_mem (List.mem_map_of_mem hy) logicalNew
      have physicalNe : y.2 ≠ p := ne_of_mem_of_not_mem (List.mem_map_of_mem hy) physicalNew
      simp [physical?_place, logical?_place, first, second, logicalNe, physicalNe]
    refine ⟨lay', ?_, fun l' p' => ?_⟩
    case refine_1 =>
      rw [List.foldlM_cons, bind_eq_ok_iff]
      exact ⟨_, placeNew_of_free logicalFree physicalFree, made⟩
    case refine_2 =>
      rw [all, physical?_place_iff_of_free logicalFree physicalFree, List.mem_cons]
      tauto

theorem ofPairs_pairs (lay : Layout) : ofPairs lay.pairs = .ok lay := by
  have ⟨lay', made, all⟩ := @exists_foldlM_placeNew empty _ lay.nodup_logical lay.distinct fun _ _ => ⟨rfl, rfl⟩
  have same : lay' = lay := ext_physical? fun l => Option.ext fun p => by
    have none : empty.physical? l = none := rfl
    simp [all, none, mem_pairs_iff]
  exact same ▸ made

namespace Tables

variable {t : Tables}

-- The tables that the pairs are entered in.
def placeAll (t : Tables) (ps : List (Nat × Nat)) : Tables := ps.foldl (fun t x => t.place x.1 x.2) t

theorem Tracks.foldlM_placeNew (h : Tracks t lay)
    (made : ps.foldlM (fun lay (l, p) => lay.placeNew l p) lay = .ok lay') :
    Tracks (t.placeAll ps) lay' := by
  induction ps generalizing t lay
  case nil =>
    cases made
    exact h
  case cons x ps hi =>
    have ⟨_, first, rest⟩ := bind_eq_ok_iff.mp made
    exact hi (of_placeNew first ▸ h.place x.1 x.2) rest

-- Whatever calls have made the tables, their pairs make them again.
theorem Tracks.placeAll_pairs (h : Tracks t lay) : Tables.empty.placeAll lay.pairs = t :=
  (Tracks.empty.foldlM_placeNew lay.ofPairs_pairs).agrees.unique h.agrees

end Tables

end Layout

theorem serialization_round_trips :
    (∀ m : CouplingMap, m.numQubits ≤ CouplingMap.maxQubits → CouplingMap.ofAdjacency m.adjacency = .ok m) ∧
    (∀ A, CouplingMap.Mapping A →
      ((∃ m, CouplingMap.ofAdjacency A = .ok m) ↔
        (∀ x ∈ A, x.1 ∉ x.2) ∧ ∀ q ∈ CouplingMap.mentioned A, q < CouplingMap.maxQubits) ∧
      ∀ m, CouplingMap.ofAdjacency A = .ok m → m.adjacency = CouplingMap.completed A) ∧
    ∀ t lay, Layout.Tables.Tracks t lay → (∀ l p, (l, p) ∈ lay.pairs ↔ t.physical l = some p) ∧
      Layout.ofPairs lay.pairs = .ok lay ∧ Layout.Tables.empty.placeAll lay.pairs = t := by
  refine ⟨CouplingMap.ofAdjacency_adjacency, fun A mapping => ?_, fun t lay tracks => ?_⟩
  case refine_1 => exact ⟨mapping.exists_ofAdjacency_iff, fun m => mapping.adjacency_of_ofAdjacency⟩
  case refine_2 =>
    refine ⟨fun l p => ?_, lay.ofPairs_pairs, tracks.placeAll_pairs⟩
    rw [Layout.mem_pairs_iff, tracks.agrees.physical]

-- Repeated targets, both directions of a pair, and a last qubit without an edge.
def untidy : List (Nat × List Nat) := [(0, [1]), (1, [2, 0, 2]), (4, [])]

-- The first qubit is driven away, and the others are in another order than their places.
def moved : Layout := (((Layout.empty.place 0 3).place 2 5).place 1 3).swap 3 7

theorem serialization_round_trips_untidy : ∃ m, CouplingMap.ofAdjacency untidy = .ok m ∧
    m.adjacency = [(0, [1]), (1, [0, 2]), (2, []), (3, []), (4, [])] ∧
    CouplingMap.ofAdjacency m.adjacency = .ok m ∧
    moved.pairs = [(1, 7), (2, 5)] ∧ Layout.ofPairs moved.pairs = .ok moved := by
  have ⟨maps, adjacencies, layouts⟩ := serialization_round_trips
  have ⟨readable, full⟩ := adjacencies untidy (by decide)
  have ⟨m, read⟩ := readable.mpr (by decide)
  have written : m.adjacency = [(0, [1]), (1, [0, 2]), (2, []), (3, []), (4, [])] :=
    (full m read).trans (by decide)
  have size : m.numQubits = 5 := by simpa [CouplingMap.adjacency] using congrArg List.length written
  have tracks : Layout.Tables.Tracks _ moved :=
    (((Layout.Tables.Tracks.empty.place 0 3).place 2 5).place 1 3).swap 3 7
  have ⟨_, made, _⟩ := layouts _ _ tracks
  exact ⟨m, read, written, maps m (size ▸ by decide), by decide, made⟩

end CircuitRouting
