/-!
# Sorted lists without repetition

`sortUnique lt xs` lists the members of `xs` in ascending order, each once.
-/

namespace CircuitRouting

variable {α : Type} (lt : α → α → Bool)

/-- Puts `x` in front of the first member that it is not above, unless that member is `x` itself. -/
def insertUnique (x : α) : List α → List α
  | [] => [x]
  | y :: ys => if lt x y then x :: y :: ys else if lt y x then y :: insertUnique x ys else y :: ys

def sortUnique (xs : List α) : List α :=
  xs.foldr (insertUnique lt) []

/-- The order of numbers. -/
def natLt (a b : Nat) : Bool := a < b

/-- The dictionary order of pairs of numbers. -/
def pairLt (a b : Nat × Nat) : Bool := a.1 < b.1 || (a.1 == b.1 && a.2 < b.2)

/-- The order of texts by code points. -/
def textLt (a b : String) : Bool := a < b

/-- A strict order that tells any two members apart. -/
structure Separating : Prop where
  irrefl : ∀ a, lt a a = false
  trans : ∀ {a b c}, lt a b → lt b c → lt a c
  eq_of_not : ∀ {a b}, lt a b = false → lt b a = false → a = b

theorem natLt_separating : Separating natLt where
  irrefl := by simp [natLt]
  trans := by simp [natLt]; omega
  eq_of_not := by simp [natLt]; omega

theorem pairLt_separating : Separating pairLt where
  irrefl := by simp [pairLt]
  trans := by
    intro a b c
    simp [pairLt]
    omega
  eq_of_not := by
    intro a b
    simp [pairLt, Prod.ext_iff]
    omega

variable {lt}

theorem mem_of_mem_insertUnique {x z : α} {ys : List α} (h : z ∈ insertUnique lt x ys) :
    z = x ∨ z ∈ ys := by
  induction ys with
  | nil => simpa [insertUnique] using h
  | cons y ys ih =>
    simp only [insertUnique] at h
    split at h
    · simpa using h
    · split at h
      · cases List.mem_cons.1 h with
        | inl h => simp [h]
        | inr h => exact (ih h).imp_right (List.mem_cons_of_mem y)
      · exact .inr h

theorem mem_of_mem_sortUnique {z : α} {xs : List α} (h : z ∈ sortUnique lt xs) : z ∈ xs := by
  induction xs with
  | nil => simp [sortUnique] at h
  | cons x xs ih =>
    cases mem_of_mem_insertUnique h with
    | inl h => simp [h]
    | inr h => exact List.mem_cons_of_mem x (ih h)

section Sorted

variable (trans : ∀ a b c, lt a b → lt b c → lt a c)
include trans

-- The list stays sorted.
theorem pairwise_insertUnique {x : α} {ys : List α} (sorted : ys.Pairwise (lt · ·)) :
    (insertUnique lt x ys).Pairwise (lt · ·) := by
  induction ys with
  | nil => simp [insertUnique]
  | cons y ys ih =>
    have ⟨above, rest⟩ := List.pairwise_cons.1 sorted
    simp only [insertUnique]
    split
    · next h =>
      refine List.pairwise_cons.2 ⟨fun z hz => ?_, sorted⟩
      cases List.mem_cons.1 hz with
      | inl hz => exact hz ▸ h
      | inr hz => exact trans _ _ _ h (above z hz)
    · split
      · next h =>
        refine List.pairwise_cons.2 ⟨fun z hz => ?_, ih rest⟩
        cases mem_of_mem_insertUnique hz with
        | inl hz => exact hz ▸ h
        | inr hz => exact above z hz
      · exact sorted

theorem pairwise_sortUnique (xs : List α) : (sortUnique lt xs).Pairwise (lt · ·) := by
  induction xs with
  | nil => exact .nil
  | cons x xs ih => exact pairwise_insertUnique trans ih

end Sorted

theorem Separating.pairwise_sortUnique (s : Separating lt) (xs : List α) :
    (sortUnique lt xs).Pairwise (lt · ·) :=
  CircuitRouting.pairwise_sortUnique (fun a b c => s.trans (a := a) (b := b) (c := c)) xs

end CircuitRouting
