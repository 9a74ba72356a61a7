import Mathlib.Data.List.Basic
import Mathlib.Data.List.Nodup

/-!
# Steps along a list

`hops l` lists the pairs of neighbours of `l`. A list without repetition is fixed by its members and
its hops: another arrangement in which every hop leads forward is the same list. Among further members
it is a part of the arrangement.
-/

namespace CircuitRouting

variable {α : Type} {a b c : α} {l u v : List α}

-- The pairs of neighbours of a list.
def hops : List α → List (α × α)
  | a :: b :: l => (a, b) :: hops (b :: l)
  | _ => []

@[simp]
theorem hops_nil : hops ([] : List α) = [] :=
  rfl

@[simp]
theorem hops_singleton (a : α) : hops [a] = [] :=
  rfl

@[simp]
theorem hops_cons_cons (a b : α) (l : List α) : hops (a :: b :: l) = (a, b) :: hops (b :: l) :=
  rfl

-- A list is cut at a member, which both parts keep.
theorem hops_append_cons (u : List α) (a : α) (v : List α) :
    hops (u ++ a :: v) = hops (u ++ [a]) ++ hops (a :: v) := by
  induction u
  case nil => rfl
  case cons x u hi =>
    cases u
    case nil => rfl
    case cons y u => simpa using hi

-- The last member of a list that starts with `a`.
def lastFrom (a : α) : List α → α
  | [] => a
  | b :: l => lastFrom b l

@[simp]
theorem lastFrom_append (a : α) (u v : List α) :
    lastFrom a (u ++ v) = lastFrom (lastFrom a u) v := by
  induction u generalizing a
  case nil => rfl
  case cons x u hi => exact hi x

theorem lastFrom_mem (a : α) (l : List α) : lastFrom a l ∈ a :: l := by
  induction l generalizing a
  case nil => simp [lastFrom]
  case cons x l hi => exact List.mem_cons_of_mem a (hi x)

theorem hops_cons_concat (a : α) (l : List α) (b : α) :
    hops (a :: (l ++ [b])) = hops (a :: l) ++ [(lastFrom a l, b)] := by
  induction l generalizing a
  case nil => rfl
  case cons x l hi => simpa [lastFrom] using hi x

theorem hops_cons_append (a : α) (u v : List α) :
    hops (a :: (u ++ v)) = hops (a :: u) ++ hops (lastFrom a u :: v) := by
  induction u generalizing a
  case nil => rfl
  case cons x u hi => simpa [lastFrom] using hi x

theorem hops_subset_cons {x : α × α} (h : x ∈ hops l) : x ∈ hops (a :: l) := by
  cases l
  case nil => simp at h
  case cons => exact List.mem_cons_of_mem _ h

-- Steps that do not touch the two ends stay between them.
theorem mem_hops_of_ne_ends {x y : α} (h : (x, y) ∈ hops (a :: (l ++ [b]))) (first : x ≠ a)
    (last : y ≠ b) : (x, y) ∈ hops l := by
  rw [hops_cons_concat, List.mem_append, List.mem_singleton, Prod.mk.injEq] at h
  have h := h.resolve_right fun eq => last eq.2
  cases l
  case nil => simp at h
  case cons z l =>
    rw [hops_cons_cons, List.mem_cons, Prod.mk.injEq] at h
    exact h.resolve_left fun eq => first eq.1

theorem mem_hops_iff : (a, b) ∈ hops l ↔ ∃ u v, l = u ++ a :: b :: v := by
  constructor
  case mp =>
    intro h
    induction l
    case nil => simp at h
    case cons x l hi =>
      cases l
      case nil => simp at h
      case cons y l =>
        cases List.mem_cons.mp h
        case inl h =>
          cases h
          exact ⟨[], l, rfl⟩
        case inr h =>
          have ⟨u, v, eq⟩ := hi h
          exact ⟨x :: u, v, by simp [eq]⟩
  case mpr =>
    intro ⟨u, v, eq⟩
    rw [eq, hops_append_cons]
    simp

-- Without repetition, the hop to a member starts at the one before it.
theorem mem_hops_iff_getLast? (nodup : (u ++ b :: v).Nodup) :
    (a, b) ∈ hops (u ++ b :: v) ↔ u.getLast? = some a := by
  rw [mem_hops_iff, List.getLast?_eq_some_iff]
  constructor
  case mp =>
    intro ⟨x, y, eq⟩
    rw [List.nodup_middle, List.nodup_cons, List.mem_append, not_or] at nodup
    have eq : u ++ b :: v = (x ++ [a]) ++ b :: y := by simp [eq]
    exact ⟨x, ((List.append_cons_inj_of_notMem nodup.1.1 nodup.1.2).mp eq).1⟩
  case mpr =>
    intro ⟨x, eq⟩
    exact ⟨x, v, by simp [eq]⟩

theorem mem_of_mem_hops (h : (a, b) ∈ hops l) : a ∈ l ∧ b ∈ l := by
  have ⟨u, v, eq⟩ := mem_hops_iff.mp h
  simp [eq]

theorem mem_tail_of_mem_hops (h : (a, b) ∈ hops (c :: l)) : b ∈ l := by
  have ⟨u, v, eq⟩ := mem_hops_iff.mp h
  cases u <;> simp only [List.nil_append, List.cons_append, List.cons.injEq] at eq
  case nil => simp [eq.2]
  case cons => simp [eq.2]

theorem isChain_of_hops {R : α → α → Prop} (h : ∀ a b, (a, b) ∈ hops l → R a b) : l.IsChain R := by
  induction l
  case nil => exact .nil
  case cons a l hi =>
    cases l
    case nil => exact .singleton a
    case cons b l =>
      exact .cons_cons (h a b (by simp)) (hi fun x y hop => h x y (hops_subset_cons hop))

-- Without repetition, a member has at most one neighbour on each side.
theorem rel_of_mem_hops {R : α → α → Prop} (pairwise : l.Pairwise R) (h : (a, b) ∈ hops l) :
    R a b := by
  have ⟨u, v, eq⟩ := mem_hops_iff.mp h
  rw [eq, List.pairwise_append, List.pairwise_cons] at pairwise
  exact pairwise.2.1.1 b (by simp)

theorem hops_right_unique (nodup : l.Nodup) (h₁ : (a, b) ∈ hops l) (h₂ : (a, c) ∈ hops l) :
    b = c := by
  induction l
  case nil => simp at h₁
  case cons x l hi =>
    cases l
    case nil => simp at h₁
    case cons y l =>
      have ⟨fresh, nodup⟩ := List.nodup_cons.mp nodup
      simp only [hops_cons_cons, List.mem_cons, Prod.mk.injEq] at h₁ h₂
      cases h₁ <;> cases h₂
      case inl.inl h₁ h₂ => exact h₁.2.trans h₂.2.symm
      case inl.inr h₁ h₂ => exact absurd (h₁.1 ▸ (mem_of_mem_hops h₂).1) fresh
      case inr.inl h₁ h₂ => exact absurd (h₂.1 ▸ (mem_of_mem_hops h₁).1) fresh
      case inr.inr h₁ h₂ => exact hi nodup h₁ h₂

theorem hops_left_unique (nodup : l.Nodup) (h₁ : (a, c) ∈ hops l) (h₂ : (b, c) ∈ hops l) :
    a = b := by
  induction l
  case nil => simp at h₁
  case cons x l hi =>
    cases l
    case nil => simp at h₁
    case cons y l =>
      have ⟨_, rest⟩ := List.nodup_cons.mp nodup
      -- The first hop is the only one into the second member.
      have first : ∀ d, (d, y) ∉ hops (y :: l) :=
        fun d h => (List.nodup_cons.mp rest).1 (mem_tail_of_mem_hops h)
      simp only [hops_cons_cons, List.mem_cons, Prod.mk.injEq] at h₁ h₂
      cases h₁ <;> cases h₂
      case inl.inl h₁ h₂ => exact h₁.1.trans h₂.1.symm
      case inl.inr h₁ h₂ => exact absurd (h₁.2 ▸ h₂) (first b)
      case inr.inl h₁ h₂ => exact absurd (h₂.2 ▸ h₁) (first a)
      case inr.inr h₁ h₂ => exact hi rest h₁ h₂

theorem hops_ne (nodup : l.Nodup) (h : (a, b) ∈ hops l) : b ≠ a := by
  have ⟨u, v, eq⟩ := mem_hops_iff.mp h
  rw [eq, List.nodup_append, List.nodup_cons] at nodup
  rintro rfl
  exact nodup.2.1.1 (by simp)

-- No hop starts at the last member.
theorem ne_lastFrom_of_mem_hops (nodup : (c :: l).Nodup) (h : (a, b) ∈ hops (c :: l)) :
    a ≠ lastFrom c l := by
  induction l generalizing c
  case nil => simp at h
  case cons x l hi =>
    have ⟨fresh, rest⟩ := List.nodup_cons.mp nodup
    cases List.mem_cons.mp h
    case inl eq =>
      have last : lastFrom c (x :: l) ∈ x :: l := lastFrom_mem x l
      rw [(Prod.mk.inj eq).1]
      exact fun same => fresh (same ▸ last)
    case inr h => exact hi rest h

-- Lists without repetition that start alike and have the same hops are the same.
theorem eq_of_mem_hops_iff {l' : List α} (nodup : (a :: l).Nodup) (nodup' : (a :: l').Nodup)
    (same : ∀ x y, (x, y) ∈ hops (a :: l) ↔ (x, y) ∈ hops (a :: l')) : l = l' := by
  induction l generalizing a l'
  case nil =>
    cases l'
    case nil => rfl
    case cons b l' => simpa using same a b
  case cons b l hi =>
    have ⟨fresh, rest⟩ := List.nodup_cons.mp nodup
    have ⟨fresh', rest'⟩ := List.nodup_cons.mp nodup'
    cases l'
    case nil => simpa using same a b
    case cons c l' =>
      have first : (a, b) ∈ hops (a :: c :: l') := (same a b).mp (by simp)
      have second : (a, c) ∈ hops (a :: c :: l') := by simp
      cases hops_right_unique nodup' first second
      -- The first hop is the only one that starts in `a`.
      have later : ∀ {k : List α} {x y : α}, a ∉ b :: k →
          ((x, y) ∈ hops (b :: k) ↔ (x, y) ∈ hops (a :: b :: k) ∧ x ≠ a) := by
        intro k x y fresh
        simp only [hops_cons_cons, List.mem_cons, Prod.mk.injEq]
        have : (x, y) ∈ hops (b :: k) → x ≠ a := fun h eq => fresh (eq ▸ (mem_of_mem_hops h).1)
        tauto
      rw [hi rest rest' fun x y => by rw [later fresh, later fresh', same]]

variable [DecidableEq α]

theorem pairwise_idxOf (nodup : l.Nodup) : l.Pairwise fun a b => l.idxOf a < l.idxOf b := by
  refine List.pairwise_iff_getElem.mpr fun i j hi hj lt => ?_
  rwa [nodup.idxOf_getElem i hi, nodup.idxOf_getElem j hj]

theorem idxOf_lt_idxOf_of_mem_left (nodup : (u ++ b :: v).Nodup) (h : a ∈ u) :
    (u ++ b :: v).idxOf a < (u ++ b :: v).idxOf b := by
  have fresh : b ∉ u := fun hb => (List.nodup_append.mp nodup).2.2 b hb b (by simp) rfl
  rw [List.idxOf_append_of_mem h, List.idxOf_append_of_notMem fresh]
  simpa using List.idxOf_lt_length_of_mem h

-- If every hop of a list leads forward in another list, the list is arranged as the other one.
theorem pairwise_of_hops_forward {l' : List α}
    (forward : ∀ a b, (a, b) ∈ hops l → l'.idxOf a < l'.idxOf b) :
    l.Pairwise fun a b => l'.idxOf a < l'.idxOf b := by
  have : IsTrans α fun a b => l'.idxOf a < l'.idxOf b := ⟨fun _ _ _ => Nat.lt_trans⟩
  exact (isChain_of_hops forward).pairwise

theorem eq_of_hops_forward {l' : List α} (nodup : l'.Nodup) (p : l.Perm l')
    (forward : ∀ a b, (a, b) ∈ hops l → l'.idxOf a < l'.idxOf b) : l = l' :=
  p.eq_of_pairwise (fun _ _ _ _ h₁ h₂ => (Nat.lt_asymm h₁ h₂).elim) (pairwise_of_hops_forward forward)
    (pairwise_idxOf nodup)

theorem sublist_of_hops_forward {l' : List α} (nodup : l'.Nodup) (subset : l ⊆ l')
    (forward : ∀ a b, (a, b) ∈ hops l → l'.idxOf a < l'.idxOf b) : l.Sublist l' := by
  have arranged := pairwise_of_hops_forward forward
  have once : l.Nodup := arranged.imp fun {a b} lt (eq : a = b) => by simp [eq] at lt
  have perm : l.Perm (l'.filter (· ∈ l)) :=
    (List.perm_ext_iff_of_nodup once (nodup.filter _)).mpr fun a => by simpa using @subset a
  have eq := perm.eq_of_pairwise (fun _ _ _ _ h₁ h₂ => (Nat.lt_asymm h₁ h₂).elim) arranged
    ((pairwise_idxOf nodup).filter _)
  exact eq ▸ List.filter_sublist

end CircuitRouting
