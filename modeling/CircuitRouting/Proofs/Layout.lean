import CircuitRouting.Layout
import CircuitRouting.Proofs.Keyed
import CircuitRouting.Proofs.Sorted

/-!
# Where a layout has its qubits

A layout places each logical qubit at most once, and different ones on different physical qubits. A
swap moves what is on the two qubits and keeps the set of occupied qubits if both were occupied.
-/

namespace CircuitRouting.Layout

variable {lay : Layout} {a b l l' p q n : Nat}

theorem nodup_logical (lay : Layout) : (lay.pairs.map Prod.fst).Nodup :=
  List.pairwise_map.mpr (lay.sorted.imp Nat.ne_of_lt)

theorem mem_pairs_iff : (l, p) ∈ lay.pairs ↔ lay.physical? l = some p := by
  simp only [physical?, Option.map_eq_some_iff, find?_key_eq_some_iff lay.nodup_logical]
  constructor
  case mp => exact fun mem => ⟨_, ⟨mem, rfl⟩, rfl⟩
  case mpr =>
    rintro ⟨x, ⟨mem, rfl⟩, rfl⟩
    exact mem

-- Layouts that place the same qubits in the same way are the same.
theorem ext_physical? {lay' : Layout} (h : ∀ l, lay.physical? l = lay'.physical? l) : lay = lay' := by
  have distinct : ∀ lay : Layout, lay.pairs.Nodup := fun lay =>
    lay.sorted.imp fun lt eq => Nat.ne_of_lt lt (congrArg Prod.fst eq)
  have perm : lay.pairs.Perm lay'.pairs := by
    refine (List.perm_ext_iff_of_nodup (distinct lay) (distinct lay')).mpr fun x => ?_
    rw [mem_pairs_iff, mem_pairs_iff, h]
  have eq := perm.eq_of_pairwise (fun x y _ _ h₁ h₂ => (Nat.lt_asymm h₁ h₂).elim) lay.sorted
    lay'.sorted
  cases lay
  cases lay'
  cases eq
  rfl

theorem physical?_injective (h : lay.physical? l = some p) (h' : lay.physical? l' = some p) :
    l = l' := by
  have same := List.inj_on_of_nodup_map lay.distinct (mem_pairs_iff.mpr h) (mem_pairs_iff.mpr h') rfl
  exact congrArg Prod.fst same

theorem physical?_swap (a b l : Nat) :
    (lay.swap a b).physical? l = (lay.physical? l).map (exchange a b) := by
  cases h : lay.physical? l
  case some p => exact mem_pairs_iff.mp (List.mem_map.mpr ⟨(l, p), mem_pairs_iff.mpr h, rfl⟩)
  case none =>
    cases h' : (lay.swap a b).physical? l
    case none => rfl
    case some p =>
      have ⟨⟨l', p'⟩, mem, eq⟩ := List.mem_map.mp (mem_pairs_iff.mpr h')
      cases eq
      simp [mem_pairs_iff.mp mem] at h

theorem mem_occupied : p ∈ lay.occupied ↔ ∃ l, lay.physical? l = some p := by
  simp [occupied, natLt_separating.mem_sortUnique, mem_pairs_iff]

theorem nodup_occupied : lay.occupied.Nodup :=
  natLt_separating.nodup_sortUnique _

theorem length_occupied : lay.occupied.length = lay.pairs.length := by
  have perm := natLt_separating.sortUnique_perm lay.distinct
  simpa [occupied] using perm.length_eq

theorem exchange_of_ne (ha : p ≠ a) (hb : p ≠ b) : exchange a b p = p := by
  simp [exchange, ha, hb]

@[simp]
theorem exchange_left : exchange a b a = b := by
  simp [exchange]

@[simp]
theorem exchange_right : exchange a b b = a := by
  grind [exchange]

theorem occupied_swap (ha : a ∈ lay.occupied) (hb : b ∈ lay.occupied) :
    (lay.swap a b).occupied = lay.occupied := by
  refine natLt_separating.eq_of_mem_iff (natLt_separating.pairwise_sortUnique _)
    (natLt_separating.pairwise_sortUnique _) fun p => ?_
  have moved : p ∈ (lay.swap a b).occupied ↔ exchange a b p ∈ lay.occupied := by
    simp only [mem_occupied, physical?_swap, Option.map_eq_some_iff]
    constructor
    case mp =>
      rintro ⟨l, x, found, rfl⟩
      exact ⟨l, by simpa using found⟩
    case mpr =>
      rintro ⟨l, found⟩
      exact ⟨l, _, found, by simp⟩
  refine moved.trans ?_
  by_cases pa : p = a
  case pos => simp [pa, ha, hb]
  case neg =>
    by_cases pb : p = b
    case pos => simp [pb, ha, hb]
    case neg => rw [exchange_of_ne pa pb]

theorem mem_others : (l', q) ∈ lay.others l p ↔ lay.physical? l' = some q ∧ l' ≠ l ∧ q ≠ p := by
  simp [others, mem_pairs_iff]

theorem physical?_place (l p l' : Nat) : (lay.place l p).physical? l' =
    if l' = l then some p else (lay.physical? l').filter (· ≠ p) := by
  have mem : ∀ q, (lay.place l p).physical? l' = some q ↔
      (l' = l ∧ q = p) ∨ lay.physical? l' = some q ∧ l' ≠ l ∧ q ≠ p := by
    intro q
    rw [← mem_pairs_iff, place, pairLt_separating.mem_insertUnique, mem_others, Prod.mk.injEq]
  refine Option.ext fun q => ?_
  rw [mem]
  split
  case isTrue eq => simp [eq, eq_comm]
  case isFalse ne => simp [ne, Option.filter_eq_some_iff]

-- On a free place a qubit drives no other one away.
theorem physical?_place_of_free (hp : p ∉ lay.occupied) :
    (lay.place l p).physical? l' = if l' = l then some p else lay.physical? l' := by
  rw [physical?_place]
  split
  case isTrue => rfl
  case isFalse =>
    cases h : lay.physical? l'
    case none => rfl
    case some q =>
      have : q ≠ p := fun eq => hp (mem_occupied.mpr ⟨l', eq ▸ h⟩)
      simp [Option.filter, this]

theorem mem_occupied_place (free : lay.physical? l = none) (hp : p ∉ lay.occupied) :
    q ∈ (lay.place l p).occupied ↔ q = p ∨ q ∈ lay.occupied := by
  simp only [mem_occupied, physical?_place_of_free hp]
  constructor
  case mp =>
    rintro ⟨l', found⟩
    split at found
    case isTrue => exact .inl (Option.some.inj found).symm
    case isFalse => exact .inr ⟨l', found⟩
  case mpr =>
    rintro (rfl | ⟨l', found⟩)
    · exact ⟨l, by simp⟩
    · have ne : l' ≠ l := by
        rintro rfl
        simp [free] at found
      exact ⟨l', by simpa [ne] using found⟩

theorem physical?_trivial (n l : Nat) : (trivial n).physical? l = if l < n then some l else none := by
  induction n
  case zero => simp [trivial, empty, physical?]
  case succ n hi =>
    have step : trivial (n + 1) = (trivial n).place n n := by
      simp [trivial, List.range_succ]
    rw [step, physical?_place, hi]
    by_cases eq : l = n
    case pos => simp [eq]
    case neg =>
      by_cases lt : l < n
      case pos => simp [eq, lt, Nat.lt_succ_of_lt lt, Option.filter]
      case neg =>
        have : ¬l < n + 1 := by omega
        simp [eq, lt, this]

end CircuitRouting.Layout
