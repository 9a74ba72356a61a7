import CircuitRouting.Proofs.Dag.Serial

/-!
# Revisions of a circuit graph

Revisions of different operations, each written on the wires of its operation, cannot fail. In the
serial order each of the operations gives way, in its place, to what its revision writes.
-/

namespace CircuitRouting.Dag

namespace Revision

-- The operation that is changed.
def node : Revision → Nat
  | replace n _ => n
  | remove n => n

-- What stands in its place.
def written : Revision → List Instruction
  | replace _ is => is
  | remove _ => []

end Revision

variable {d d' : Dag} {seq l r : List (Nat × Instruction)} {i : Instruction} {rev : Revision}
  {revs : List Revision} {x : Nat × Instruction}

-- What revisions make of an operation.
def revised (revs : List Revision) (x : Nat × Instruction) : List Instruction :=
  match revs.find? fun rev => rev.node == x.1 with
  | some rev => rev.written
  | none => [x.2]

theorem revised_of_notMem (h : x.1 ∉ revs.map Revision.node) : revised revs x = [x.2] := by
  have none : (revs.find? fun rev => rev.node == x.1) = none := by
    rw [List.find?_eq_none]
    intro rev hr eq
    exact h (List.mem_map.mpr ⟨rev, hr, by simpa using eq⟩)
  simp [revised, none]

theorem revised_cons_self (h : x.1 = rev.node) : revised (rev :: revs) x = rev.written := by
  simp [revised, h]

theorem revised_cons_of_ne (h : x.1 ≠ rev.node) : revised (rev :: revs) x = revised revs x := by
  simp [revised, beq_false_of_ne h.symm]

theorem revised_of_mem (nodup : (revs.map Revision.node).Nodup) (hr : rev ∈ revs)
    (node : rev.node = x.1) : revised revs x = rev.written := by
  rw [revised, (find?_key_eq_some_iff nodup).mpr ⟨hr, node⟩]

-- The operations after revisions, each under the number of the operation that it comes from.
def retagged (revs : List Revision) (seq : List (Nat × Instruction)) : List (Nat × Instruction) :=
  seq.flatMap fun x => (revised revs x).map (x.1, ·)

@[simp]
theorem retagged_append : retagged revs (l ++ r) = retagged revs l ++ retagged revs r := by
  simp [retagged]

theorem map_snd_retagged : (retagged revs seq).map Prod.snd = seq.flatMap (revised revs) := by
  simp [retagged, List.map_flatMap, Function.comp_def]

-- Revisions of other operations come after what was revised before.
theorem flatMap_revised_append {revs' : List Revision}
    (apart : ∀ n ∈ revs.map Revision.node, n ∉ revs'.map Revision.node) :
    seq.flatMap (revised (revs ++ revs')) = (retagged revs seq).flatMap (revised revs') := by
  rw [retagged, List.flatMap_assoc]
  refine List.flatMap_congr fun x _ => ?_
  by_cases hx : x.1 ∈ revs.map Revision.node
  case pos =>
    have ⟨rev, hr, eq⟩ := List.mem_map.mp hx
    have found : (revs.find? fun rev => rev.node == x.1).isSome :=
      List.find?_isSome.mpr ⟨rev, hr, by simp [eq]⟩
    have later : ∀ i, revised revs' (x.1, i) = [i] := fun i => revised_of_notMem (apart x.1 hx)
    have same : revised (revs ++ revs') x = revised revs x := by
      rw [revised, List.find?_append, Option.or_of_isSome found, revised]
    simp [same, List.flatMap_map, later]
  case neg =>
    have none : (revs.find? fun rev => rev.node == x.1) = none := by
      rw [List.find?_eq_none]
      exact fun rev hr eq => hx (List.mem_map.mpr ⟨rev, hr, by simpa using eq⟩)
    rw [revised_of_notMem hx, revised, List.find?_append, none]
    simp [revised]

-- A revision fits an operation if what it writes is valid and stays on the wires of the operation.
def Revision.Fits (d : Dag) (rev : Revision) (i : Instruction) : Prop :=
  ∀ j ∈ rev.written, d.FitsOnce j ∧ ∀ w ∈ j.wires, w ∈ i.wires

theorem Serial.revise (h : d.Serial (l ++ (rev.node, i) :: r)) (fits : rev.Fits d i) :
    ∃ fresh d', d.revise rev = .ok d' ∧ fresh.map Prod.snd = rev.written ∧
      d.Replaced rev.node fresh d' ∧ d'.Serial (l ++ fresh ++ r) := by
  cases rev
  case replace n is =>
    have ⟨fresh, d', eq, snd, rep, serial⟩ := h.substitute _ (fun j hj => (fits j hj).1)
      fun j hj => (fits j hj).2
    exact ⟨fresh, d', map_eq_ok_iff.mpr ⟨_, eq, rfl⟩, snd, rep, serial⟩
  case remove n =>
    have ⟨d', eq, rep, serial⟩ := h.removeOp
    exact ⟨[], d', map_eq_ok_iff.mpr ⟨_, eq, rfl⟩, rfl, rep, by simpa using serial⟩

theorem flatMap_revised_of_ne (ne : ∀ x ∈ l, x.1 ≠ rev.node) :
    l.flatMap (revised (rev :: revs)) = l.flatMap (revised revs) :=
  List.flatMap_congr fun x hx => revised_cons_of_ne (ne x hx)

-- What becomes of an operation: it stays if no revision names it, and otherwise it makes way for
-- operations with numbers that are free or those of revised operations.
structure Renews (d : Dag) (revs : List Revision) (x : Nat × Instruction)
    (ys : List (Nat × Instruction)) : Prop where
  written : ys.map Prod.snd = revised revs x
  stays : x.1 ∉ revs.map Revision.node → ys = [x]
  fresh : x.1 ∈ revs.map Revision.node →
    ∀ y ∈ ys, y.1 ∈ revs.map Revision.node ∨ d.instruction? y.1 = none

namespace Renews

variable {fresh ys : List (Nat × Instruction)}

theorem here (rep : d.Replaced rev.node fresh d') (snd : fresh.map Prod.snd = rev.written)
    (eq : x.1 = rev.node) : d.Renews (rev :: revs) x fresh where
  written := snd.trans (revised_cons_self eq).symm
  stays out := by simp [eq] at out
  fresh _ y hy := by
    cases rep.free y.1 (List.mem_map_of_mem hy)
    case inl eq => exact .inl (by simp [eq])
    case inr none => exact .inr (by simp [instruction?_eq, none])

theorem later (rep : d.Replaced rev.node fresh d') (h : d'.Renews revs x ys) (ne : x.1 ≠ rev.node) :
    d.Renews (rev :: revs) x ys where
  written := h.written.trans (revised_cons_of_ne ne).symm
  stays out := h.stays fun mem => out (by simp [mem])
  fresh mem y hy := by
    have mem : x.1 ∈ revs.map Revision.node := by simpa [ne] using mem
    by_cases eq : y.1 = rev.node
    case pos => exact .inl (by simp [eq])
    case neg =>
      cases h.fresh mem y hy
      case inl mem => exact .inl (by simp [mem])
      case inr none =>
        refine .inr (Option.eq_none_iff_forall_ne_some.mpr fun j hj => ?_)
        have node := rep.node?_of_ne (instruction?_eq_some_iff.mp hj) eq
        simp [instruction?_eq, node, Node.instruction?] at none

end Renews

-- A way to list the operations of a graph in which a revision fills the place of its operation.
structure Revisable (ok : Nat × Instruction → Prop) (p : Dag → List (Nat × Instruction) → Prop) :
    Prop where
  lists : ∀ {d seq}, p d seq → d.Lists seq
  revise : ∀ {d l r i rev}, p d (l ++ (rev.node, i) :: r) → ok (rev.node, i) → rev.Fits d i →
    ∃ fresh d', d.revise rev = .ok d' ∧ fresh.map Prod.snd = rev.written ∧
      d.Replaced rev.node fresh d' ∧ p d' (l ++ fresh ++ r)

theorem Revision.Fits.congr (h : rev.Fits d i) (alike : d.Alike d') : rev.Fits d' i :=
  fun j hj => ⟨(h j hj).1.congr fun w => (alike.hasWire w).mpr, (h j hj).2⟩

section Split

variable {n : Nat} {fresh : List (Nat × Instruction)} {f : Nat × Instruction → List (Nat × Instruction)}

theorem mem_of_mem_split (hx : x ∈ l ++ (n, i) :: r) (ne : x.1 ≠ n) : x ∈ l ++ fresh ++ r := by
  simp only [List.mem_append, List.mem_cons] at hx ⊢
  rcases hx with hx | eq | hx
  · exact .inl (.inl hx)
  · exact absurd (congrArg Prod.fst eq) ne
  · exact .inr hx

-- One operation gives way to new ones, which stay.
theorem flatMap_split (other : ∀ x ∈ l ++ r, x.1 ≠ n) (stay : ∀ x ∈ fresh, f x = [x]) :
    (l ++ (n, i) :: r).flatMap (fun x => if x.1 = n then fresh else f x) =
      (l ++ fresh ++ r).flatMap f := by
  have same : ∀ s : List (Nat × Instruction), (∀ x ∈ s, x.1 ≠ n) →
      s.flatMap (fun x => if x.1 = n then fresh else f x) = s.flatMap f :=
    fun s hs => List.flatMap_congr fun x hx => if_neg (hs x hx)
  have kept : fresh.flatMap f = fresh := (List.flatMap_congr stay).trans (by simp)
  have ⟨left, right⟩ := List.forall_mem_append.mp other
  rw [List.flatMap_append, List.flatMap_cons, same l left, same r right, if_pos rfl,
    List.flatMap_append, List.flatMap_append, kept, List.append_assoc]

end Split

-- One revision after the other: what one has written is not revised again.
theorem Revisable.reviseAll {ok : Nat × Instruction → Prop} {p : Dag → List (Nat × Instruction) → Prop}
    (hp : Revisable ok p) (h : p d seq) (nodup : (revs.map Revision.node).Nodup)
    (valid : ∀ rev ∈ revs, ∃ i, (rev.node, i) ∈ seq ∧ ok (rev.node, i) ∧ rev.Fits d i) :
    ∃ d' f, reviseAll revs d = (.ok (), d') ∧ d.Alike d' ∧ p d' (seq.flatMap f) ∧
      ∀ x ∈ seq, d.Renews revs x (f x) := by
  induction revs generalizing d seq
  case nil =>
    refine ⟨d, ([·]), rfl, .refl d, by simpa using h, fun x _ => ⟨?_, fun _ => rfl, by simp⟩⟩
    rw [revised_of_notMem (by simp)]
    rfl
  case cons rev revs hi =>
    obtain ⟨i, hx, good, fits⟩ := valid rev (by simp)
    obtain ⟨l, r, split⟩ := List.append_of_mem hx
    subst split
    obtain ⟨fresh, d₁, eq, snd, rep, h₁⟩ := hp.revise h good fits
    obtain ⟨other, nodup⟩ := List.nodup_cons.mp nodup
    have lists := hp.lists h
    have ne : ∀ rev' ∈ revs, rev'.node ≠ rev.node := fun rev' hr eq =>
      other (eq ▸ List.mem_map_of_mem hr)
    have valid₁ : ∀ rev ∈ revs, ∃ i, (rev.node, i) ∈ l ++ fresh ++ r ∧ ok (rev.node, i) ∧
        rev.Fits d₁ i := by
      intro rev' hr
      obtain ⟨j, hj, good', fits'⟩ := valid rev' (by simp [hr])
      exact ⟨j, mem_of_mem_split hj (ne rev' hr), good', fits'.congr rep.alike⟩
    obtain ⟨d', f, eq', alike, h', renews⟩ := hi h₁ nodup valid₁
    -- The new nodes are none of those that are still to be revised.
    have apart : ∀ x ∈ fresh, x.1 ∉ revs.map Revision.node := by
      intro x hx mem
      obtain ⟨rev', hr, node⟩ := List.mem_map.mp mem
      obtain ⟨j, hj, _⟩ := valid rev' (by simp [hr])
      have op := (lists.mem_iff _ _).mp hj
      exact rep.notMem (isSome_of_instruction? (by simp [op])) (ne rev' hr)
        (node ▸ List.mem_map_of_mem hx)
    have stay : ∀ x ∈ fresh, f x = [x] := fun x hx => (renews x (by simp [hx])).stays (apart x hx)
    refine ⟨d', fun x => if x.1 = rev.node then fresh else f x, by simp [Dag.reviseAll, eq, eq'],
      rep.alike.trans alike, ?_, fun x hx => ?_⟩
    case refine_1 =>
      rw [flatMap_split (fun x hx => lists.ne_of_split x hx) stay]
      exact h'
    case refine_2 =>
      dsimp only
      split
      case isTrue here => exact .here rep snd here
      case isFalse ne => exact .later rep (renews x (mem_of_mem_split hx ne)) ne

theorem Serial.revisable : Revisable (fun _ => True) Serial where
  lists h := h.lists
  revise h _ fits := h.revise fits

theorem Serial.reviseAll (h : d.Serial seq) (nodup : (revs.map Revision.node).Nodup)
    (valid : ∀ rev ∈ revs, ∃ i, (rev.node, i) ∈ seq ∧ rev.Fits d i) :
    ∃ d' seq', reviseAll revs d = (.ok (), d') ∧ d.Alike d' ∧ d'.Serial seq' ∧
      seq'.map Prod.snd = seq.flatMap (revised revs) := by
  have ⟨d', f, eq, alike, serial, renews⟩ := revisable.reviseAll h nodup fun rev hr =>
    have ⟨i, hi, fits⟩ := valid rev hr
    ⟨i, hi, trivial, fits⟩
  refine ⟨d', _, eq, alike, serial, ?_⟩
  rw [List.map_flatMap]
  exact List.flatMap_congr fun x hx => (renews x hx).written

end CircuitRouting.Dag
