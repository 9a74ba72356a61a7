import CircuitRouting.Proofs.Dag.Order

/-!
# Programs up to the order of what is apart

Instructions that share no wire may change places. All serial orders of a circuit graph give the same
program up to such changes.
-/

namespace CircuitRouting

-- The instructions share no wire.
def Instruction.Apart (i j : Instruction) : Prop :=
  ∀ w ∈ i.wires, w ∉ j.wires

theorem Instruction.Apart.symm {i j : Instruction} (h : i.Apart j) : j.Apart i :=
  fun w hj hi => h w hi hj

inductive Reorders : List Instruction → List Instruction → Prop
  | refl (is : List Instruction) : Reorders is is
  | swap {i j : Instruction} (l r : List Instruction) :
    i.Apart j → Reorders (l ++ i :: j :: r) (l ++ j :: i :: r)
  | trans {is js ks : List Instruction} : Reorders is js → Reorders js ks → Reorders is ks

namespace Reorders

variable {is js l r : List Instruction} {i : Instruction}

theorem symm (h : Reorders is js) : Reorders js is := by
  induction h
  case refl => exact .refl _
  case swap l r apart => exact .swap l r apart.symm
  case trans hi hi' => exact hi'.trans hi

theorem append_left (h : Reorders is js) (l : List Instruction) : Reorders (l ++ is) (l ++ js) := by
  induction h
  case refl => exact .refl _
  case swap u v apart =>
    rw [← List.append_assoc, ← List.append_assoc]
    exact .swap (l ++ u) v apart
  case trans hi hi' => exact .trans hi hi'

theorem cons (h : Reorders is js) (i : Instruction) : Reorders (i :: is) (i :: js) :=
  h.append_left [i]

-- An instruction moves behind others that it is apart from.
theorem push (apart : ∀ j ∈ l, i.Apart j) : Reorders (i :: (l ++ r)) (l ++ i :: r) := by
  induction l
  case nil => exact .refl _
  case cons j l hi =>
    have here : Reorders (i :: j :: (l ++ r)) (j :: i :: (l ++ r)) :=
      .swap [] _ (apart j (by simp))
    exact here.trans ((hi fun k hk => apart k (by simp [hk])).cons j)

-- Programs that are apart change places.
theorem exchange {m : List Instruction} (apart : ∀ i ∈ l, ∀ j ∈ m, i.Apart j) :
    Reorders (l ++ (m ++ r)) (m ++ (l ++ r)) := by
  induction l
  case nil => exact .refl _
  case cons i l hi =>
    have ⟨here, later⟩ := List.forall_mem_cons.mp apart
    exact ((hi later).cons i).trans (.push here)

theorem perm (h : Reorders is js) : is.Perm js := by
  induction h
  case refl => exact .refl _
  case swap l r _ => exact (List.Perm.swap ..).append_left l
  case trans hi hi' => exact hi.trans hi'

-- Each instruction gives way to others on its own wires.
theorem flatMap {f : Instruction → List Instruction} (h : Reorders is js)
    (within : ∀ i ∈ is, ∀ j ∈ f i, ∀ w ∈ j.wires, w ∈ i.wires) :
    Reorders (is.flatMap f) (js.flatMap f) := by
  induction h
  case refl => exact .refl _
  case swap i j l r apart =>
    simp only [List.flatMap_append, List.flatMap_cons]
    refine (exchange fun a ha b hb w hw hw' => ?_).append_left _
    exact apart w (within i (by simp) a ha w hw) (within j (by simp) b hb w hw')
  case trans h _ hi hi' => exact (hi within).trans (hi' fun i hi => within i (h.perm.mem_iff.mpr hi))

end Reorders

namespace Dag

variable {d : Dag} {seq seq' : List (Nat × Instruction)}

-- What stands before the first member of a serial order in another one is apart from it.
theorem apart_of_onWire_eq {x : Nat × Instruction} {l a b : List (Nat × Instruction)}
    (nodup : ((a ++ x :: b).map Prod.fst).Nodup)
    (same : ∀ w, onWire w (x :: l) = onWire w (a ++ x :: b)) :
    ∀ y ∈ a, x.2.Apart y.2 := by
  intro y hy w hx hw
  have eq := same w
  rw [onWire_cons, if_pos hx, onWire_append] at eq
  have mem : y.1 ∈ onWire w a := mem_onWire.mpr ⟨y.2, hy, hw⟩
  have ⟨z, rest, cut⟩ := List.exists_cons_of_ne_nil (List.ne_nil_of_mem mem)
  rw [cut, List.cons_append, List.cons_append, List.cons.injEq] at eq
  have first : x.1 ∈ a.map Prod.fst := onWire_sublist.subset (by rw [cut, eq.1]; simp)
  rw [List.map_append, List.nodup_append] at nodup
  exact nodup.2.2 x.1 first x.1 (by simp) rfl

theorem reorders_of_onWire_eq (nodup : (seq.map Prod.fst).Nodup) (p : seq.Perm seq')
    (same : ∀ w, onWire w seq = onWire w seq') :
    Reorders (seq.map Prod.snd) (seq'.map Prod.snd) := by
  induction seq generalizing seq'
  case nil =>
    cases p.nil_eq
    exact .refl _
  case cons x seq hi =>
    have ⟨a, b, split⟩ := List.append_of_mem (p.mem_iff.mp List.mem_cons_self)
    subst split
    have nodup' := (p.map Prod.fst).nodup_iff.mp nodup
    have apart := apart_of_onWire_eq nodup' same
    have rest := hi (List.nodup_cons.mp nodup).2 (p.trans List.perm_middle).cons_inv fun w => by
      have eq := same w
      rw [onWire_cons, onWire_append, onWire_cons] at eq
      by_cases hw : w ∈ x.2.wires
      case pos =>
        have none : onWire w a = [] := onWire_eq_nil fun y hy => apart y hy w hw
        simpa [hw, none] using eq
      case neg => simpa [hw] using eq
    have apart' : ∀ j ∈ a.map Prod.snd, x.2.Apart j := by
      intro j hj
      have ⟨y, hy, eq⟩ := List.mem_map.mp hj
      exact eq ▸ apart y hy
    rw [List.map_append] at rest
    rw [List.map_cons, List.map_append, List.map_cons]
    exact (rest.cons x.2).trans (.push apart')

theorem Serial.reorders (h : d.Serial seq) (h' : d.Serial seq') :
    Reorders (seq.map Prod.snd) (seq'.map Prod.snd) :=
  reorders_of_onWire_eq h.nodup (h.perm h') (h.onWire_eq h')

theorem Serial.reorders_instructions (h : d.Serial seq) :
    Reorders d.instructions (seq.map Prod.snd) :=
  h.topologicalOps.reorders h

end Dag

end CircuitRouting
