import CircuitRouting.CouplingMap.Components
import CircuitRouting.Proofs.Sorted
import Mathlib.Data.Set.Card
import Mathlib.Logic.Relation

/-!
# Connected qubits

Two qubits are joined within a set if edges of the device, in either direction, lead from one to the
other without leaving the set. Merging the ends of all edges gives blocks of qubits that are joined,
so that a set is connected if it ends up in one block.
-/

namespace CircuitRouting.CouplingMap

open Relation

-- The two numbers are the ends of one of the edges.
def Linked (edges : List (Nat × Nat)) (a b : Nat) : Prop :=
  (a, b) ∈ edges ∨ (b, a) ∈ edges

theorem Linked.symm {edges : List (Nat × Nat)} {a b : Nat} (h : Linked edges a b) :
    Linked edges b a :=
  Or.symm h

theorem Linked.joined_cons {edges : List (Nat × Nat)} {e : Nat × Nat} {a b : Nat}
    (h : ReflTransGen (Linked edges) a b) : ReflTransGen (Linked (e :: edges)) a b :=
  ReflTransGen.mono (fun _ _ link =>
    link.imp (List.mem_cons_of_mem e) (List.mem_cons_of_mem e)) _ _ h

section Blocks

variable {edges : List (Nat × Nat)} {e : Nat × Nat} {members : List Nat} {bs : List (List Nat)}
  {b : List Nat} {x y : Nat}

-- Blocks that cover the members, are joined by the edges, and are not left by any of them.
structure Blocks (edges : List (Nat × Nat)) (members : List Nat) (bs : List (List Nat)) : Prop where
  perm : bs.flatten.Perm members
  nonempty : ∀ b ∈ bs, b ≠ []
  joined : ∀ b ∈ bs, ∀ x ∈ b, ∀ y ∈ b, ReflTransGen (Linked edges) x y
  closed : ∀ e ∈ edges, ∀ b ∈ bs, e.1 ∈ b ↔ e.2 ∈ b

namespace Blocks

theorem singletons (members : List Nat) : Blocks [] members (members.map fun q => [q]) where
  perm := by
    rw [← List.flatMap_def, List.flatMap_singleton']
  nonempty := by simp
  joined := by
    intro b hb x hx y hy
    have ⟨q, _, eq⟩ := List.mem_map.mp hb
    subst eq
    rw [List.mem_singleton.mp hx, List.mem_singleton.mp hy]
  closed := by simp

theorem mem_touched {b : List Nat} :
    b ∈ (bs.filter fun b => b.contains e.1 || b.contains e.2) ↔ b ∈ bs ∧ (e.1 ∈ b ∨ e.2 ∈ b) := by
  simp

theorem mem_others {b : List Nat} :
    b ∈ (bs.filter fun b => !(b.contains e.1 || b.contains e.2)) ↔
      b ∈ bs ∧ e.1 ∉ b ∧ e.2 ∉ b := by
  simp

-- Every member of a block that the edge touches is joined with its first end.
theorem joined_touched (h : Blocks edges members bs)
    (hx : x ∈ (bs.filter fun b => b.contains e.1 || b.contains e.2).flatten) :
    ReflTransGen (Linked (e :: edges)) x e.1 ∧ ReflTransGen (Linked (e :: edges)) e.1 x := by
  have link : Linked (e :: edges) e.1 e.2 := .inl (by simp)
  have ⟨b, hb, hx⟩ := List.mem_flatten.mp hx
  have ⟨hb, touches⟩ := mem_touched.mp hb
  cases touches
  case inl he =>
    exact ⟨Linked.joined_cons (h.joined b hb x hx _ he),
      Linked.joined_cons (h.joined b hb _ he x hx)⟩
  case inr he =>
    exact ⟨(Linked.joined_cons (h.joined b hb x hx _ he)).tail link.symm,
      .head link (Linked.joined_cons (h.joined b hb _ he x hx))⟩

theorem ends_mem_touched (h : Blocks edges members bs) (inside : e.1 ∈ members ∧ e.2 ∈ members) :
    e.1 ∈ (bs.filter fun b => b.contains e.1 || b.contains e.2).flatten ∧
      e.2 ∈ (bs.filter fun b => b.contains e.1 || b.contains e.2).flatten := by
  have ⟨first, hf, f⟩ := List.mem_flatten.mp (h.perm.mem_iff.mpr inside.1)
  have ⟨second, hs, s⟩ := List.mem_flatten.mp (h.perm.mem_iff.mpr inside.2)
  exact ⟨List.mem_flatten.mpr ⟨first, mem_touched.mpr ⟨hf, .inl f⟩, f⟩,
    List.mem_flatten.mpr ⟨second, mem_touched.mpr ⟨hs, .inr s⟩, s⟩⟩

-- An old edge does not leave the new block, since it leaves none of the blocks in it.
theorem closed_touched (h : Blocks edges members bs) {e' : Nat × Nat} (he' : e' ∈ edges) :
    e'.1 ∈ (bs.filter fun b => b.contains e.1 || b.contains e.2).flatten ↔
      e'.2 ∈ (bs.filter fun b => b.contains e.1 || b.contains e.2).flatten := by
  simp only [List.mem_flatten]
  refine exists_congr fun b => and_congr_right fun hb => ?_
  exact h.closed e' he' b (mem_touched.mp hb).1

-- An edge merges the blocks of its ends.
theorem merge (h : Blocks edges members bs) (inside : e.1 ∈ members ∧ e.2 ∈ members) :
    Blocks (e :: edges) members (merge bs e) where
  perm := by
    refine List.Perm.trans ?_ h.perm
    rw [CouplingMap.merge, List.flatten_cons, ← List.flatten_append]
    exact (List.filter_append_perm _ bs).flatten
  nonempty := by
    refine List.forall_mem_cons.mpr ⟨?_, fun b hb => h.nonempty b (mem_others.mp hb).1⟩
    exact List.ne_nil_of_mem (h.ends_mem_touched inside).1
  joined := by
    refine List.forall_mem_cons.mpr ⟨fun x hx y hy => ?_, fun b hb x hx y hy => ?_⟩
    case refine_1 => exact (h.joined_touched hx).1.trans (h.joined_touched hy).2
    case refine_2 => exact Linked.joined_cons (h.joined b (mem_others.mp hb).1 x hx y hy)
  closed := by
    refine List.forall_mem_cons.mpr ⟨?_, fun e' he' => ?_⟩
    case refine_1 =>
      have ⟨first, second⟩ := h.ends_mem_touched inside
      refine List.forall_mem_cons.mpr ⟨iff_of_true first second, fun b hb => ?_⟩
      exact iff_of_false (mem_others.mp hb).2.1 (mem_others.mp hb).2.2
    case refine_2 =>
      exact List.forall_mem_cons.mpr
        ⟨h.closed_touched he', fun b hb => h.closed e' he' b (mem_others.mp hb).1⟩

theorem foldl_merge (h : Blocks edges members bs) (more : List (Nat × Nat))
    (inside : ∀ e ∈ more, e.1 ∈ members ∧ e.2 ∈ members) :
    Blocks (more.reverse ++ edges) members (more.foldl CouplingMap.merge bs) := by
  induction more generalizing edges bs
  case nil => exact h
  case cons e more hi =>
    have ⟨here, later⟩ := List.forall_mem_cons.mp inside
    simpa using hi (h.merge here) later

theorem congr {edges' : List (Nat × Nat)} (h : Blocks edges members bs)
    (same : ∀ e, e ∈ edges ↔ e ∈ edges') : Blocks edges' members bs where
  perm := h.perm
  nonempty := h.nonempty
  joined b hb x hx y hy := ReflTransGen.mono (fun _ _ link => link.imp (same _).mp (same _).mp) _ _
    (h.joined b hb x hx y hy)
  closed e he := h.closed e ((same e).mpr he)

-- Edges do not lead out of a block.
theorem mem_of_joined (h : Blocks edges members bs) (hb : b ∈ bs) (hx : x ∈ b)
    (joined : ReflTransGen (Linked edges) x y) : y ∈ b := by
  induction joined
  case refl => exact hx
  case tail link hi =>
    cases link
    case inl he => exact (h.closed _ he b hb).mp hi
    case inr he => exact (h.closed _ he b hb).mpr hi

theorem exists_mem (h : Blocks edges members bs) (hx : x ∈ members) : ∃ b ∈ bs, x ∈ b :=
  List.mem_flatten.mp (h.perm.mem_iff.mpr hx)

theorem mem_members (h : Blocks edges members bs) (hb : b ∈ bs) (hx : x ∈ b) : x ∈ members :=
  h.perm.mem_iff.mp (List.mem_flatten.mpr ⟨b, hb, hx⟩)

theorem length_le_one_iff (h : Blocks edges members bs) (nodup : members.Nodup) :
    bs.length ≤ 1 ↔ ∀ x ∈ members, ∀ y ∈ members, ReflTransGen (Linked edges) x y := by
  constructor
  case mp =>
    intro len x hx y hy
    have ⟨b, hb, hx⟩ := h.exists_mem hx
    have ⟨b', hb', hy⟩ := h.exists_mem hy
    have same : b' = b := by
      have ⟨i, hi, eq⟩ := List.mem_iff_getElem.mp hb
      have ⟨j, hj, eq'⟩ := List.mem_iff_getElem.mp hb'
      have : i = j := by omega
      subst this
      exact eq'.symm.trans eq
    exact h.joined b hb x hx y (same ▸ hy)
  case mpr =>
    intro joined
    match bs, h with
    | [], _ => simp
    | [_], _ => simp
    | b :: b' :: bs, h =>
      have ⟨x, hx⟩ := List.exists_mem_of_ne_nil b (h.nonempty b (by simp))
      have ⟨y, hy⟩ := List.exists_mem_of_ne_nil b' (h.nonempty b' (by simp))
      have both : y ∈ b := h.mem_of_joined (by simp) hx <|
        joined x (h.mem_members (b := b) (by simp) hx) y (h.mem_members (b := b') (by simp) hy)
      have nodup := h.perm.nodup_iff.mpr nodup
      rw [List.flatten_cons, List.flatten_cons] at nodup
      exact absurd rfl ((List.nodup_append.mp nodup).2.2 y both y (by simp [hy]))

end Blocks

-- The edges among the members join them in blocks.
theorem blocks_spec (members : List Nat) (edges : List (Nat × Nat)) :
    Blocks (edges.filter fun e => members.contains e.1 && members.contains e.2) members
      (blocks members edges) := by
  have built := (Blocks.singletons members).foldl_merge
    (edges.filter fun e => members.contains e.1 && members.contains e.2) (by simp)
  exact built.congr (by simp)

end Blocks

variable {m : CouplingMap} {s : List Nat} {a b q : Nat}

-- Joined by edges that do not leave the given qubits.
def Joined (m : CouplingMap) (s : List Nat) : Nat → Nat → Prop :=
  ReflTransGen fun a b => a ∈ s ∧ b ∈ s ∧ m.coupled a b

def Connected (m : CouplingMap) (s : List Nat) : Prop :=
  ∀ a ∈ s, ∀ b ∈ s, m.Joined s a b

-- The qubits that are joined with a qubit.
def component (m : CouplingMap) (q : Nat) : Set Nat :=
  { p | ReflTransGen (m.coupled · ·) q p }

theorem coupled_comm : m.coupled a b = m.coupled b a := by
  rw [coupled, coupled, Bool.or_comm]

theorem inside_of_coupled (h : m.coupled a b) : a < m.numQubits ∧ b < m.numQubits ∧ a ≠ b := by
  simp only [coupled, hasEdge, Bool.or_eq_true, List.contains_iff_mem] at h
  rcases h with h | h
  · exact m.inside _ h
  · have := m.inside _ h
    exact ⟨this.2.1, this.1, this.2.2.symm⟩

theorem mem_neighbors : b ∈ m.neighbors a ↔ m.coupled a b := by
  rw [neighbors, natLt_separating.mem_sortUnique, List.mem_filterMap]
  simp only [coupled, hasEdge, Bool.or_eq_true, List.contains_iff_mem, Prod.exists]
  constructor
  case mp =>
    rintro ⟨x, y, mem, eq⟩
    grind [otherEnd?]
  case mpr =>
    rintro (mem | mem)
    · exact ⟨a, b, mem, by simp [otherEnd?]⟩
    · have ne := (m.inside _ mem).2.2
      exact ⟨b, a, mem, by simp [otherEnd?, ne]⟩

theorem linked_filter_iff {members : List Nat} :
    Linked (m.edges.filter fun e => members.contains e.1 && members.contains e.2) a b ↔
      a ∈ members ∧ b ∈ members ∧ m.coupled a b := by
  simp only [Linked, List.mem_filter, Bool.and_eq_true, List.contains_iff_mem, coupled, hasEdge,
    Bool.or_eq_true]
  tauto

theorem joined_symm (h : m.Joined s a b) : m.Joined s b a := by
  induction h
  case refl => exact .refl
  case tail link hi =>
    have ⟨hb, hc, coupled⟩ := link
    exact .head ⟨hc, hb, coupled_comm ▸ coupled⟩ hi

theorem Joined.mono {s' : List Nat} (h : m.Joined s a b) (sub : s ⊆ s') : m.Joined s' a b :=
  ReflTransGen.mono (fun _ _ step => ⟨sub step.1, sub step.2.1, step.2.2⟩) _ _ h

theorem Joined.mem_component (h : m.Joined s a b) : b ∈ m.component a :=
  ReflTransGen.mono (fun _ _ step => step.2.2) _ _ h

namespace Connected

theorem congr {s' : List Nat} (h : m.Connected s) (same : ∀ q, q ∈ s ↔ q ∈ s') : m.Connected s' :=
  fun a ha b hb => (h a ((same a).mpr ha) b ((same b).mpr hb)).mono fun q hq => (same q).mp hq

theorem nil (m : CouplingMap) : m.Connected [] := by
  simp [Connected]

-- A set grows by a neighbour of one of its members.
theorem cons (h : m.Connected s) (ha : a ∈ s) (coupled : m.coupled a b) :
    m.Connected (b :: s) := by
  have old : ∀ x ∈ s, m.Joined (b :: s) a x := fun x hx =>
    (h a ha x hx).mono (List.subset_cons_self b s)
  have new : m.Joined (b :: s) a b := .single ⟨by simp [ha], by simp, coupled⟩
  have all : ∀ x ∈ b :: s, m.Joined (b :: s) a x := List.forall_mem_cons.mpr ⟨new, old⟩
  exact fun x hx y hy => (joined_symm (all x hx)).trans (all y hy)

end Connected

-- A way out of a set leaves it by an edge.
theorem exists_exit (ha : a ∈ s) (hb : b ∉ s) (joined : b ∈ m.component a) :
    ∃ x ∈ s, ∃ y, y ∉ s ∧ m.coupled x y := by
  induction joined
  case refl => contradiction
  case tail x y _ step hi =>
    by_cases hx : x ∈ s
    case pos => exact ⟨x, hx, y, hb, step⟩
    case neg => exact hi hx

theorem component_eq (coupled : m.coupled a b) : m.component a = m.component b := by
  ext q
  exact ⟨.head (coupled_comm ▸ coupled), .head coupled⟩

theorem isConnectedSubset_iff :
    m.isConnectedSubset s ↔ (∀ q ∈ s, q < m.numQubits) ∧ m.Connected s := by
  have mem : ∀ q, q ∈ sortUnique natLt s ↔ q ∈ s := fun q => natLt_separating.mem_sortUnique
  have linked : Linked (m.edges.filter fun e => (sortUnique natLt s).contains e.1 &&
      (sortUnique natLt s).contains e.2) = fun a b => a ∈ s ∧ b ∈ s ∧ m.coupled a b := by
    funext a b
    rw [linked_filter_iff, mem, mem]
  have spec := (blocks_spec (sortUnique natLt s) m.edges).length_le_one_iff
    (natLt_separating.nodup_sortUnique s)
  rw [linked] at spec
  simp only [mem] at spec
  rw [isConnectedSubset, Bool.and_eq_true, List.all_eq_true, decide_eq_true_iff, spec]
  simp [Connected, Joined]

theorem finite_component (hq : q < m.numQubits) : (m.component q).Finite := by
  refine (Set.finite_lt_nat m.numQubits).subset fun p hp => ?_
  cases hp
  case refl => exact hq
  case tail step => exact (inside_of_coupled step).2.1

end CircuitRouting.CouplingMap
