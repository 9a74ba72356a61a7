import Mathlib.Data.List.Basic
import Mathlib.Data.List.Nodup

/-!
# Lists with distinct keys

Where no two members of a list have the same key, a key names one member at most: a search for it finds
this member, and what holds of some member with the key holds of this one.
-/

namespace CircuitRouting

variable {α κ : Type} {l : List α} {a : α}

-- A search finds what alone has the property.
theorem find?_eq_some_of_only {p : α → Bool} (mem : a ∈ l) (here : p a)
    (only : ∀ x ∈ l, p x → x = a) : l.find? p = some a := by
  cases found : l.find? p
  case none => exact absurd here (List.find?_eq_none.mp found a mem)
  case some x => rw [only x (List.mem_of_find?_eq_some found) (List.find?_some found)]

section Key

variable {key : α → κ}

theorem find?_key_eq_some_iff [BEq κ] [LawfulBEq κ] {k : κ} (nodup : (l.map key).Nodup) :
    l.find? (fun x => key x == k) = some a ↔ a ∈ l ∧ key a = k := by
  constructor
  case mp =>
    intro found
    exact ⟨List.mem_of_find?_eq_some found, by simpa using List.find?_some found⟩
  case mpr =>
    rintro ⟨mem, rfl⟩
    refine find?_eq_some_of_only mem (by simp) fun x hx same => ?_
    exact List.inj_on_of_nodup_map nodup hx mem (by simpa using same)

theorem exists_key_iff {p : α → Prop} (nodup : (l.map key).Nodup) (mem : a ∈ l) :
    (∃ x ∈ l, key x = key a ∧ p x) ↔ p a := by
  constructor
  case mp =>
    rintro ⟨x, hx, same, hp⟩
    exact List.inj_on_of_nodup_map nodup hx mem same ▸ hp
  case mpr => exact fun hp => ⟨a, mem, rfl, hp⟩

end Key

end CircuitRouting
