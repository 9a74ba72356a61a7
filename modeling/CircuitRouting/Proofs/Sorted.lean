import CircuitRouting.Sorted
import Mathlib.Data.List.Basic
import Mathlib.Data.List.Nodup

/-!
# Sorted lists without repetition

`sortUnique` lists the members of a list, each once. Two sorted lists with the same members are the
same.
-/

namespace CircuitRouting

variable {α : Type} {lt : α → α → Bool} {x y z : α} {xs ys : List α}

theorem pairLt_iff {a b : Nat × Nat} : pairLt a b ↔ a.1 < b.1 ∨ a.1 = b.1 ∧ a.2 < b.2 := by
  simp [pairLt]

namespace Separating

theorem asymm (s : Separating lt) (h₁ : lt x y) (h₂ : lt y x) : False := by
  simpa [s.irrefl] using s.trans h₁ h₂

theorem nodup (s : Separating lt) (sorted : xs.Pairwise (lt · ·)) : xs.Nodup := by
  refine sorted.imp fun {x y} h eq => ?_
  simp [eq, s.irrefl] at h

theorem nodup_sortUnique (s : Separating lt) (xs : List α) : (sortUnique lt xs).Nodup :=
  s.nodup (s.pairwise_sortUnique xs)

theorem mem_insertUnique (s : Separating lt) : z ∈ insertUnique lt x ys ↔ z = x ∨ z ∈ ys := by
  refine ⟨mem_of_mem_insertUnique, fun h => ?_⟩
  induction ys
  case nil => simpa [insertUnique] using h
  case cons y ys hi =>
    simp only [insertUnique]
    split <;> try split
    case isTrue => simpa using h
    case isFalse.isTrue =>
      simp only [List.mem_cons] at h ⊢
      cases h
      case inl h => exact .inr (hi (.inl h))
      case inr h => exact h.imp_right fun h => hi (.inr h)
    case isFalse.isFalse h₁ h₂ =>
      have eq : x = y := s.eq_of_not (by simpa using h₁) (by simpa using h₂)
      simpa [eq] using h

theorem mem_sortUnique (s : Separating lt) : z ∈ sortUnique lt xs ↔ z ∈ xs := by
  induction xs
  case nil => simp [sortUnique]
  case cons x xs hi => simp [sortUnique, s.mem_insertUnique, ← hi]

-- Sorted lists with the same members are the same.
theorem eq_of_mem_iff (s : Separating lt) (hx : xs.Pairwise (lt · ·)) (hy : ys.Pairwise (lt · ·))
    (h : ∀ z, z ∈ xs ↔ z ∈ ys) : xs = ys := by
  have p := (List.perm_ext_iff_of_nodup (s.nodup hx) (s.nodup hy)).mpr h
  exact p.eq_of_pairwise (fun _ _ _ _ h₁ h₂ => (s.asymm h₁ h₂).elim) hx hy

theorem sortUnique_perm (s : Separating lt) (nodup : xs.Nodup) : (sortUnique lt xs).Perm xs :=
  (List.perm_ext_iff_of_nodup (s.nodup_sortUnique xs) nodup).mpr fun _ => s.mem_sortUnique

end Separating

-- Nothing is dropped from a list whose members are comparable.
theorem insertUnique_perm (h : ∀ y ∈ ys, lt x y ∨ lt y x) :
    (insertUnique lt x ys).Perm (x :: ys) := by
  induction ys
  case nil => simp [insertUnique]
  case cons y ys hi =>
    simp only [insertUnique]
    split <;> try split
    case isTrue => exact .refl _
    case isFalse.isTrue =>
      have p := hi fun z hz => h z (by simp [hz])
      exact (p.cons y).trans (.swap x y ys)
    case isFalse.isFalse h₁ h₂ =>
      cases h y (by simp) <;> contradiction

theorem sortUnique_perm (h : xs.Pairwise fun x y => lt x y ∨ lt y x) :
    (sortUnique lt xs).Perm xs := by
  induction xs
  case nil => exact .refl _
  case cons x xs hi =>
    have ⟨first, rest⟩ := List.pairwise_cons.mp h
    have p := hi rest
    have q : (insertUnique lt x (sortUnique lt xs)).Perm (x :: sortUnique lt xs) :=
      insertUnique_perm fun y hy => first y (p.mem_iff.mp hy)
    exact q.trans (p.cons x)

end CircuitRouting
