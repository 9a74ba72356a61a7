import CircuitRouting.Proofs.Dag.Revision
import CircuitRouting.Proofs.Simplification

/-!
# Contraction of segments

A segment is a part of a program that no other instruction on its wires interrupts. Its instructions
can be brought together and then be contracted to one instruction or none. Contractions of segments
without a common instruction do not disturb each other, so that all of them can be made.
-/

namespace CircuitRouting

open Dag

-- Operations on the wires `ws`, and only on them, that follow each other on each of these wires.
structure Segment (seq : List (Nat × Instruction)) (ws : List Wire)
    (part : List (Nat × Instruction)) : Prop where
  subset : ∀ x ∈ part, x ∈ seq
  wires : ∀ x ∈ part, ∀ w, w ∈ x.2.wires ↔ w ∈ ws
  tight : ∀ w ∈ ws, part.map Prod.fst <:+: onWire w seq

variable {P : List Instruction → List Instruction → Prop} {seq rest part : List (Nat × Instruction)}
  {ws : List Wire} {w : Wire} {x y : Nat × Instruction} {rev : Revision} {revs revs' : List Revision}

theorem eq_of_fst_eq (nodup : (seq.map Prod.fst).Nodup) (hx : x ∈ seq) (hy : y ∈ seq)
    (eq : x.1 = y.1) : x = y :=
  List.inj_on_of_nodup_map nodup hx hy eq

theorem onWire_eq_append {u v : List Nat} (h : onWire w seq = u ++ v) :
    ∃ a b, seq = a ++ b ∧ onWire w a = u ∧ onWire w b = v := by
  have ⟨u', v', eq, left, right⟩ := List.map_eq_append_iff.mp h
  have ⟨a, b, split, hu, hv⟩ := List.filter_eq_append_iff.mp eq
  exact ⟨a, b, split, by rw [onWire, hu, left], by rw [onWire, hv, right]⟩

-- Operations on the wires `ws`, and only on them, that come first on each of these wires.
structure Leading (seq : List (Nat × Instruction)) (ws : List Wire)
    (part : List (Nat × Instruction)) : Prop where
  subset : ∀ x ∈ part, x ∈ seq
  wires : ∀ x ∈ part, ∀ w, w ∈ x.2.wires ↔ w ∈ ws
  first : ∀ w ∈ ws, part.map Prod.fst <+: onWire w seq

namespace Leading

-- The first of them is taken off.
theorem tail (h : Leading (x :: seq) ws (x :: part)) (some : w ∈ ws) (fresh : x.1 ∉ seq.map Prod.fst) :
    Leading seq ws part := by
  have first : ∀ w ∈ ws, part.map Prod.fst <+: onWire w seq := by
    intro w hw
    have pre := h.first w hw
    rw [onWire_cons, if_pos ((h.wires x (by simp) w).mpr hw), List.map_cons] at pre
    exact (List.cons_prefix_cons.mp pre).2
  refine ⟨fun z hz => ?_, fun z hz => h.wires z (by simp [hz]), first⟩
  have out : x.1 ∉ part.map Prod.fst := fun mem =>
    fresh (onWire_sublist.subset ((first w some).subset mem))
  refine (List.mem_cons.mp (h.subset z (by simp [hz]))).resolve_left fun eq => ?_
  exact out (eq ▸ List.mem_map_of_mem hz)

-- What comes before the first of them is on none of the wires.
theorem off_wires (h : Leading (x :: seq) ws (y :: part)) (ne : x.1 ≠ y.1) (hw : w ∈ ws) :
    w ∉ x.2.wires := by
  intro on
  have pre := h.first w hw
  rw [onWire_cons, if_pos on, List.map_cons] at pre
  exact ne (List.cons_prefix_cons.mp pre).1.symm

theorem skip (h : Leading (x :: seq) ws (y :: part)) (ne : x.1 ≠ y.1) (some : w ∈ ws) :
    Leading seq ws (y :: part) where
  subset z hz := (List.mem_cons.mp (h.subset z hz)).resolve_left fun eq =>
    h.off_wires ne some (eq ▸ (h.wires z hz w).mpr some)
  wires := h.wires
  first w hw := by
    have pre := h.first w hw
    rwa [onWire_cons, if_neg (h.off_wires ne hw), List.nil_append] at pre

-- Operations that come first on their wires come first.
theorem reorders (h : Leading seq ws part) (some : w ∈ ws) (nodup : (seq.map Prod.fst).Nodup) :
    Reorders (seq.map Prod.snd) (part.map Prod.snd ++
      (seq.filter fun x => x.1 ∉ part.map Prod.fst).map Prod.snd) := by
  induction seq generalizing part
  case nil =>
    cases part
    case nil => exact .refl _
    case cons y part => simpa using h.subset y (by simp)
  case cons x seq hi =>
    have ⟨fresh, nodup'⟩ := List.nodup_cons.mp nodup
    cases part
    case nil => simpa using .refl _
    case cons y part =>
      by_cases eq : x.1 = y.1
      case pos =>
        cases eq_of_fst_eq nodup List.mem_cons_self (h.subset y (by simp)) eq
        have gone : (seq.filter fun z => z.1 ∉ (x :: part).map Prod.fst) =
            seq.filter fun z => z.1 ∉ part.map Prod.fst := by
          refine List.filter_congr fun z hz => ?_
          have ne : z.1 ≠ x.1 := fun eq => fresh (eq ▸ List.mem_map_of_mem hz)
          simp [ne]
        rw [List.filter_cons, if_neg (by simp), gone]
        exact (hi (h.tail some fresh) nodup').cons x.2
      case neg =>
        have rest := h.skip eq some
        have kept : x.1 ∉ (y :: part).map Prod.fst := by
          intro mem
          have ⟨z, hz, same⟩ := List.mem_map.mp mem
          exact fresh (same ▸ List.mem_map_of_mem (rest.subset z hz))
        have apart : ∀ j ∈ (y :: part).map Prod.snd, x.2.Apart j := by
          intro j hj v hv hv'
          have ⟨z, hz, same⟩ := List.mem_map.mp hj
          exact h.off_wires eq ((h.wires z hz v).mp (same ▸ hv')) hv
        rw [List.filter_cons, if_pos (by simpa using kept), List.map_cons, List.map_cons]
        exact ((hi rest nodup').cons x.2).trans (.push apart)

end Leading

-- The rest of a segment comes first on its wires after the first operation of the segment.
theorem Segment.prefix_of_split {l : List (Nat × Instruction)}
    (h : Segment (l ++ x :: rest) ws (x :: part))
    (nodup : ((l ++ x :: rest).map Prod.fst).Nodup) :
    ∀ w ∈ ws, part.map Prod.fst <+: onWire w rest := by
  intro w hw
  have ⟨u, v, eq⟩ := h.tight w hw
  have nodup_w : (onWire w (l ++ x :: rest)).Nodup := nodup.sublist onWire_sublist
  rw [← eq] at nodup_w
  rw [onWire_append, onWire_cons, if_pos ((h.wires x (by simp) w).mpr hw)] at eq
  simp only [List.map_cons, List.append_assoc, List.cons_append, List.nil_append] at eq nodup_w
  have ⟨_, after, apart⟩ := List.nodup_append.mp nodup_w
  have right := (List.nodup_cons.mp after).1
  have left : x.1 ∉ u := fun mem => apart _ mem _ (by simp) rfl
  have ⟨_, _, eq⟩ := (List.append_cons_inj_of_notMem left right).mp eq
  exact ⟨v, eq⟩

theorem Segment.reorders {l : List (Nat × Instruction)}
    (h : Segment (l ++ x :: rest) ws (x :: part)) (some : w ∈ ws)
    (nodup : ((l ++ x :: rest).map Prod.fst).Nodup) :
    Reorders ((l ++ x :: rest).map Prod.snd) (l.map Prod.snd ++ (x :: part).map Prod.snd ++
      (rest.filter fun y => y.1 ∉ part.map Prod.fst).map Prod.snd) := by
  have pre := h.prefix_of_split nodup
  have nodup' := nodup
  rw [List.map_append, List.map_cons, List.nodup_append, List.nodup_cons] at nodup'
  have members : ∀ y ∈ part, y ∈ rest := by
    intro y hy
    have ⟨i, hi, _⟩ := mem_onWire.mp ((pre w some).subset (List.mem_map_of_mem hy))
    have same : y = (y.1, i) := eq_of_fst_eq nodup (h.subset y (by simp [hy])) (by simp [hi]) rfl
    exact same ▸ hi
  have leading : Leading rest ws part := ⟨members, fun y hy => h.wires y (by simp [hy]), pre⟩
  have later := leading.reorders some nodup'.2.1.2
  rw [List.map_append, List.map_cons, List.map_cons, List.append_assoc]
  exact (later.cons x.2).append_left _

-- A segment gives way to at most one instruction on its wires.
inductive Contracts (P : List Instruction → List Instruction → Prop) (seq : List (Nat × Instruction)) :
    List Revision → Prop
  | intro (ws : List Wire) (w : Wire) (x : Nat × Instruction) (part : List (Nat × Instruction))
      {rev : Revision} {revs : List Revision} :
    w ∈ ws → Segment seq ws (x :: part) → rev.node = x.1 →
    revs.map Revision.node = part.map Prod.fst → (∀ rev ∈ revs, rev.written = []) →
    rev.written.length ≤ 1 → (∀ j ∈ rev.written, ∀ w ∈ j.wires, w ∈ ws) →
    (∀ l r, Simplifies P (l ++ (x :: part).map Prod.snd ++ r) (l ++ rev.written ++ r)) →
    Contracts P seq (rev :: revs)

theorem revised_of_removed (h : ∀ rev ∈ revs, rev.written = []) (x : Nat × Instruction) :
    revised revs x = if x.1 ∈ revs.map Revision.node then [] else [x.2] := by
  split
  case isTrue hx =>
    have ⟨rev, hr, eq⟩ := List.mem_map.mp hx
    have ⟨rev', found⟩ := Option.isSome_iff_exists.mp
      (List.find?_isSome (p := fun rev => rev.node == x.1).mpr ⟨rev, hr, by simp [eq]⟩)
    rw [revised, found]
    exact h rev' (List.mem_of_find?_eq_some found)
  case isFalse hx => exact revised_of_notMem hx

theorem flatMap_revised_of_removed (h : ∀ rev ∈ revs, rev.written = [])
    (seq : List (Nat × Instruction)) :
    seq.flatMap (revised revs) =
      (seq.filter fun x => x.1 ∉ revs.map Revision.node).map Prod.snd := by
  induction seq
  case nil => rfl
  case cons x seq hi =>
    rw [List.flatMap_cons, hi, revised_of_removed h, List.filter_cons]
    by_cases hx : x.1 ∈ revs.map Revision.node
    case pos => simp [hx]
    case neg => simp [hx]

namespace Contracts

theorem simplifies (h : Contracts P seq revs) (nodup : (seq.map Prod.fst).Nodup) :
    Simplifies P (seq.map Prod.snd) (seq.flatMap (revised revs)) := by
  cases h
  case intro ws w x part rev revs some segment node nodes removed _ _ contract =>
    have ⟨l, rest, split⟩ := List.append_of_mem (segment.subset x (by simp))
    subst split
    have reordered := segment.reorders some nodup
    have nodup' := nodup
    rw [List.map_append, List.map_cons, List.nodup_append, List.nodup_cons] at nodup'
    have left : ∀ y ∈ l, y.1 ∉ (rev :: revs).map Revision.node := by
      intro y hy mem
      rw [List.map_cons, node, nodes] at mem
      have off : y.1 ≠ x.1 := nodup'.2.2 y.1 (List.mem_map_of_mem hy) x.1 (by simp)
      have mem := (List.mem_cons.mp mem).resolve_left off
      have inside := onWire_sublist.subset ((segment.prefix_of_split nodup w some).subset mem)
      exact nodup'.2.2 y.1 (List.mem_map_of_mem hy) y.1 (List.mem_cons_of_mem _ inside) rfl
    have right : ∀ y ∈ rest, y.1 ≠ rev.node := by
      intro y hy eq
      exact nodup'.2.1.1 (node ▸ eq ▸ List.mem_map_of_mem hy)
    rw [List.flatMap_append, List.flatMap_cons, revised_cons_self node.symm,
      flatMap_revised_of_ne right, flatMap_revised_of_removed removed, nodes,
      List.flatMap_congr fun y hy => revised_of_notMem (left y hy), ← List.map_eq_flatMap,
      ← List.append_assoc]
    exact .trans (.reorder reordered) (contract _ _)

end Contracts

-- Each operation is revised to at most one, on its wires.
def Narrow (revs : List Revision) (seq : List (Nat × Instruction)) : Prop :=
  ∀ x ∈ seq, (revised revs x).length ≤ 1 ∧ ∀ j ∈ revised revs x, ∀ w ∈ j.wires, w ∈ x.2.wires

namespace Narrow

theorem nodup (h : Narrow revs seq) (nodup : (seq.map Prod.fst).Nodup) :
    ((retagged revs seq).map Prod.fst).Nodup := by
  refine nodup.sublist ?_
  clear nodup
  induction seq
  case nil => exact .refl _
  case cons x seq hi =>
    have ⟨here, later⟩ := List.forall_mem_cons.mp h
    rw [retagged, List.flatMap_cons, List.map_append, List.map_map]
    have same : (revised revs x).map (Prod.fst ∘ (x.1, ·)) =
        List.replicate (revised revs x).length x.1 := List.map_const'
    have short : ((revised revs x).map (Prod.fst ∘ (x.1, ·))).Sublist [x.1] :=
      same ▸ (List.replicate_sublist_replicate x.1 (n := 1)).mpr here.1
    exact short.append (hi later)

-- Operations that are not revised stay as they are on a wire.
theorem onWire_retagged (h : Narrow revs seq)
    (apart : ∀ n ∈ onWire w seq, n ∉ revs.map Revision.node) :
    onWire w (retagged revs seq) = onWire w seq := by
  induction seq
  case nil => rfl
  case cons x seq hi =>
    obtain ⟨here, later⟩ := List.forall_mem_cons.mp h
    rw [onWire_cons] at apart
    have rest := hi later fun n hn => apart n (by simp [hn])
    rw [retagged, List.flatMap_cons, onWire_append, onWire_cons]
    refine congrArg₂ _ ?_ rest
    by_cases hw : w ∈ x.2.wires
    case pos =>
      have same := revised_of_notMem (apart x.1 (by simp [hw]))
      simp [same, onWire_cons, hw]
    case neg =>
      rw [if_neg hw]
      refine onWire_eq_nil fun y hy on => hw ?_
      obtain ⟨j, hj, eq⟩ := List.mem_map.mp hy
      exact here.2 j hj w (by simpa [← eq] using on)

-- A segment that is not revised stays one.
theorem segment (h : Narrow revs seq) (s : Segment seq ws part)
    (apart : ∀ x ∈ part, x.1 ∉ revs.map Revision.node) : Segment (retagged revs seq) ws part where
  subset x hx := by
    rw [retagged, List.mem_flatMap]
    exact ⟨x, s.subset x hx, by simp [revised_of_notMem (apart x hx)]⟩
  wires := s.wires
  tight w hw := by
    obtain ⟨u, v, eq⟩ := s.tight w hw
    obtain ⟨front, c, split, first, _⟩ := onWire_eq_append eq.symm
    obtain ⟨a, b, split', _, mid⟩ := onWire_eq_append first
    subst split split'
    have same : onWire w (retagged revs b) = onWire w b := by
      refine onWire_retagged (fun x hx => h x (by simp [hx])) fun n hn => ?_
      rw [mid] at hn
      obtain ⟨x, hx, eq⟩ := List.mem_map.mp hn
      exact eq ▸ apart x hx
    refine ⟨onWire w (retagged revs a), onWire w (retagged revs c), ?_⟩
    simp [same, mid]

end Narrow

namespace Contracts

theorem narrow (h : Contracts P seq revs) (nodup : (seq.map Prod.fst).Nodup) :
    Narrow revs seq := by
  intro x hx
  cases h
  case intro ws w y part rev revs some segment node nodes removed short inside contract =>
    by_cases eq : x.1 = rev.node
    case pos =>
      cases eq_of_fst_eq nodup hx (segment.subset y (by simp)) (eq.trans node)
      rw [revised_cons_self eq]
      exact ⟨short, fun j hj w hw => (segment.wires x (by simp) w).mpr (inside j hj w hw)⟩
    case neg =>
      rw [revised_cons_of_ne eq, revised_of_removed removed]
      split <;> simp

-- A contraction leaves those of other operations as they are.
theorem retagged (h : Contracts P seq revs') (narrow : Narrow revs seq)
    (apart : ∀ n ∈ revs'.map Revision.node, n ∉ revs.map Revision.node) :
    Contracts P (retagged revs seq) revs' := by
  cases h
  case intro ws w y part rev revs some segment node nodes removed short inside contract =>
    refine .intro ws w y part some (narrow.segment segment fun x hx => apart x.1 ?_) node nodes removed
      short inside contract
    rw [List.map_cons, node, nodes]
    exact List.mem_map_of_mem (f := Prod.fst) hx

-- Contractions that share no operation can all be made.
theorem simplifies_all {groups : List (List Revision)} (nodup : (seq.map Prod.fst).Nodup)
    (apart : (groups.flatten.map Revision.node).Nodup)
    (h : ∀ revs ∈ groups, Contracts P seq revs) :
    Simplifies P (seq.map Prod.snd) (seq.flatMap (revised groups.flatten)) := by
  induction groups generalizing seq
  case nil =>
    rw [List.flatMap_congr fun x _ => revised_of_notMem (by simp), ← List.map_eq_flatMap]
    exact .refl _ _
  case cons revs groups hi =>
    have ⟨here, later⟩ := List.forall_mem_cons.mp h
    rw [List.flatten_cons, List.map_append, List.nodup_append] at apart
    have narrow := here.narrow nodup
    have other : ∀ n ∈ revs.map Revision.node, n ∉ groups.flatten.map Revision.node :=
      fun n hn hn' => apart.2.2 n hn n hn' rfl
    have rest := hi (narrow.nodup nodup) apart.2.1 fun revs' hr => (later revs' hr).retagged narrow
      fun n hn hn' => other n hn' <| by
        have ⟨rev, hv, eq⟩ := List.mem_map.mp hn
        exact List.mem_map.mpr ⟨rev, List.mem_flatten_of_mem hr hv, eq⟩
    rw [map_snd_retagged] at rest
    rw [List.flatten_cons, flatMap_revised_append other]
    exact (here.simplifies nodup).trans rest

end Contracts

end CircuitRouting
