import Mathlib.Data.List.Basic

/-!
# Texts that are put together

A text that is put together with marks in between can be taken apart again, as long as the parts do not
hold the marks.
-/

namespace CircuitRouting

section Cut

variable {α : Type} {p : α → Bool} {a a' : α} {x x' r r' : List α}

theorem takeWhile_append_cons (hx : ∀ b ∈ x, p b) (ha : p a = false) :
    (x ++ a :: r).takeWhile p = x := by
  rw [List.takeWhile_append_of_pos hx, List.takeWhile_cons_of_neg (by simp [ha]), List.append_nil]

-- Two lists are cut at their first marks into the same parts.
theorem append_cons_inj (hx : ∀ b ∈ x, p b) (hx' : ∀ b ∈ x', p b) (ha : p a = false)
    (ha' : p a' = false) (eq : x ++ a :: r = x' ++ a' :: r') : x = x' ∧ a = a' ∧ r = r' := by
  have same : x = x' := by
    rw [← takeWhile_append_cons (r := r) hx ha, eq, takeWhile_append_cons hx' ha']
  subst same
  exact ⟨rfl, List.cons.inj (List.append_cancel_left eq)⟩

-- Two lists are cut at their last marks into the same parts.
theorem append_cons_inj_last (hr : ∀ b ∈ r, p b) (hr' : ∀ b ∈ r', p b) (ha : p a = false)
    (ha' : p a' = false) (eq : x ++ a :: r = x' ++ a' :: r') : x = x' ∧ a = a' ∧ r = r' := by
  have eq : r.reverse ++ a :: x.reverse = r'.reverse ++ a' :: x'.reverse := by
    simpa using congrArg List.reverse eq
  have ⟨right, mark, left⟩ := append_cons_inj (by simpa using hr) (by simpa using hr') ha ha' eq
  exact ⟨List.reverse_injective left, mark, List.reverse_injective right⟩

end Cut

-- Lists are the same if what is written for their members is.
theorem map_inj_of_forall {α β : Type} {f : α → β} {P : α → Prop} {as as' : List α}
    (inj : ∀ a a', P a → P a' → f a = f a' → a = a') (h : ∀ a ∈ as, P a) (h' : ∀ a ∈ as', P a)
    (eq : as.map f = as'.map f) : as = as' := by
  induction as generalizing as'
  case nil => simpa [eq_comm] using eq
  case cons a as hi =>
    cases as'
    case nil => simp at eq
    case cons a' as' =>
      have ⟨here, rest⟩ := List.cons.inj eq
      have later := hi (fun a ha => h a (by simp [ha])) (fun a ha => h' a (by simp [ha])) rest
      rw [inj a a' (h a (by simp)) (h' a' (by simp)) here, later]

-- A text that is made of certain characters only.
def MadeOf (p : Char → Bool) (s : String) : Prop :=
  ∀ ch ∈ s.toList, p ch

instance (p : Char → Bool) (s : String) : Decidable (MadeOf p s) :=
  List.decidableBAll (p ·) s.toList

namespace MadeOf

variable {p q : Char → Bool} {s t : String}

theorem imp (h : MadeOf p s) (pq : ∀ ch, p ch → q ch) : MadeOf q s :=
  fun ch hch => pq ch (h ch hch)

theorem avoids (h : MadeOf p s) {c : Char} (other : p c = false) : MadeOf (· ≠ c) s := by
  refine h.imp fun ch member => ?_
  simp only [ne_eq, decide_eq_true_eq]
  rintro rfl
  simp [other] at member

theorem append (h : MadeOf p s) (h' : MadeOf p t) : MadeOf p (s ++ t) := by
  intro ch hch
  rw [String.toList_append] at hch
  exact (List.mem_append.mp hch).elim (h ch) (h' ch)

theorem ofList {cs : List Char} (h : ∀ ch ∈ cs, p ch) : MadeOf p (String.ofList cs) := by
  intro ch hch
  exact h ch (by simpa using hch)

theorem decimal (n : Nat) : MadeOf Char.isDigit (toString n) := by
  intro ch hch
  rw [Nat.toString_eq_repr, Nat.toList_repr] at hch
  exact Nat.isDigit_of_mem_toDigits (by decide) (by decide) hch

theorem intercalate {ls : List String} (sep : MadeOf p s) (h : ∀ l ∈ ls, MadeOf p l) :
    MadeOf p (s.intercalate ls) := by
  induction ls
  case nil =>
    rw [String.intercalate_nil]
    simp [MadeOf]
  case cons l ls hi =>
    by_cases last : ls = []
    case pos =>
      rw [last, String.intercalate_singleton]
      exact h l (by simp)
    case neg =>
      rw [String.intercalate_cons_of_ne_nil last]
      exact ((h l (by simp)).append sep).append (hi fun l hl => h l (by simp [hl]))

end MadeOf

theorem toString_inj {m n : Nat} (h : (toString m).toList = (toString n).toList) : m = n := by
  have read : ∀ k : Nat, Nat.ofDigitChars 10 (toString k).toList 0 = k := fun k => by
    rw [Nat.toString_eq_repr, Nat.toList_repr]
    exact Nat.ofDigitChars_toDigits (by decide) (by decide)
  rw [← read m, h, read n]

variable {ls ls' : List String}

-- A text determines its lines.
theorem lines_inj (h : ∀ l ∈ ls, MadeOf (· ≠ '\n') l) (h' : ∀ l ∈ ls', MadeOf (· ≠ '\n') l)
    (eq : String.join (ls.map (· ++ "\n")) = String.join (ls'.map (· ++ "\n"))) : ls = ls' := by
  have toList : ∀ ls : List String,
      (String.join (ls.map (· ++ "\n"))).toList = ls.flatMap (·.toList ++ ['\n']) := by
    simp [String.toList_join, List.flatMap_map]
  replace eq := congrArg String.toList eq
  rw [toList, toList] at eq
  induction ls generalizing ls'
  case nil =>
    cases ls'
    case nil => rfl
    case cons => simp at eq
  case cons l ls hi =>
    cases ls'
    case nil => simp at eq
    case cons l' ls' =>
      simp only [List.flatMap_cons, List.append_assoc, List.singleton_append] at eq
      have ⟨line, _, rest⟩ := append_cons_inj (h l (by simp)) (h' l' (by simp)) (by simp) (by simp) eq
      have later := hi (fun l hl => h l (by simp [hl])) (fun l hl => h' l (by simp [hl])) rest
      rw [String.toList_inj.mp line, later]

-- A listing determines what it lists, if it lists something.
theorem intercalate_inj (h : ∀ l ∈ ls, MadeOf (· ≠ ',') l) (h' : ∀ l ∈ ls', MadeOf (· ≠ ',') l)
    (some : ls ≠ []) (some' : ls' ≠ []) (eq : ",".intercalate ls = ",".intercalate ls') : ls = ls' := by
  have split : ∀ ls : List String, (∀ l ∈ ls, MadeOf (· ≠ ',') l) → ls ≠ [] →
      (",".intercalate ls).toList.splitOn ',' = ls.map String.toList := by
    intro ls free some
    rw [String.toList_intercalate]
    refine List.splitOn_intercalate ',' (fun cs hcs mem => ?_) (by simpa using some)
    have ⟨l, hl, eq⟩ := List.mem_map.mp hcs
    simpa using free l hl ',' (eq ▸ mem)
  have same := split ls h some
  rw [eq, split ls' h' some'] at same
  exact (List.map_injective_iff.mpr (fun _ _ => String.toList_inj.mp) same).symm

end CircuitRouting
