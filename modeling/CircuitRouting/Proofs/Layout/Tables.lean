import CircuitRouting.Proofs.Except
import CircuitRouting.Proofs.Layout
import Mathlib.Data.Set.Card
import Mathlib.Logic.Function.Basic

/-!
# A layout as two tables

A layout can be kept as two tables, from logical to physical qubits and back, that each change updates
entry by entry. Whatever calls have made a layout, the tables that the same calls lead to agree with it,
and so are each other's inverse.
-/

namespace CircuitRouting.Layout

variable {lay lay' : Layout} {a b l p q : Nat}

theorem logical?_eq_some_iff : lay.logical? p = some l ↔ lay.physical? l = some p := by
  simp only [← mem_pairs_iff, logical?, Option.map_eq_some_iff, find?_key_eq_some_iff lay.distinct]
  constructor
  case mp =>
    rintro ⟨x, ⟨mem, rfl⟩, rfl⟩
    exact mem
  case mpr => exact fun mem => ⟨_, ⟨mem, rfl⟩, rfl⟩

theorem logical?_swap (a b p : Nat) : (lay.swap a b).logical? p = lay.logical? (exchange a b p) := by
  refine Option.ext fun l => ?_
  rw [logical?_eq_some_iff, logical?_eq_some_iff, physical?_swap, Option.map_eq_some_iff]
  constructor
  case mp =>
    rintro ⟨q, found, rfl⟩
    simpa using found
  case mpr => exact fun found => ⟨_, found, by simp⟩

-- Two qubits have each other's occupants, and each other one its own.
theorem logical?_swap_eq (a b p : Nat) : (lay.swap a b).logical? p =
    if p = a then lay.logical? b else if p = b then lay.logical? a else lay.logical? p := by
  rw [logical?_swap, exchange]
  split
  case isTrue => rfl
  case isFalse => split <;> rfl

theorem physical?_place_eq_some_iff {l' p' : Nat} : (lay.place l p).physical? l' = some p' ↔
    (l' = l ∧ p' = p) ∨ (l' ≠ l ∧ p' ≠ p ∧ lay.physical? l' = some p') := by
  rw [physical?_place]
  split
  case isTrue eq => simp [eq, eq_comm]
  case isFalse ne => simp [ne, Option.filter_eq_some_iff, and_comm]

theorem logical?_place (l p q : Nat) : (lay.place l p).logical? q =
    if q = p then some l else (lay.logical? q).filter (· ≠ l) := by
  refine Option.ext fun l' => ?_
  rw [logical?_eq_some_iff, physical?_place_eq_some_iff]
  split
  case isTrue eq => simp [eq, eq_comm]
  case isFalse ne => simp [ne, Option.filter_eq_some_iff, logical?_eq_some_iff, and_comm]

theorem swap_swap (lay : Layout) (a b : Nat) : (lay.swap a b).swap a b = lay :=
  ext_physical? fun l => by simp [physical?_swap, Function.comp_def]

theorem size_eq_ncard (lay : Layout) : lay.size = {p | (lay.logical? p).isSome}.ncard := by
  have same : {p | (lay.logical? p).isSome} = (lay.occupied.toFinset : Set Nat) := by
    ext p
    simp [mem_occupied, Option.isSome_iff_exists, logical?_eq_some_iff]
  rw [same, Set.ncard_coe_finset, List.toFinset_card_of_nodup nodup_occupied, length_occupied, size]

theorem size_eq_ncard_placed (lay : Layout) : lay.size = {l | (lay.physical? l).isSome}.ncard := by
  have same : {l | (lay.physical? l).isSome} = ((lay.pairs.map Prod.fst).toFinset : Set Nat) := by
    ext l
    simp [Option.isSome_iff_exists, ← mem_pairs_iff]
  rw [same, Set.ncard_coe_finset, List.toFinset_card_of_nodup lay.nodup_logical, List.length_map, size]

-- Where each logical qubit is, and what is on each physical one.
structure Tables where
  physical : Nat → Option Nat
  logical : Nat → Option Nat

namespace Tables

open Function

def empty : Tables := ⟨fun _ => none, fun _ => none⟩

variable (t : Tables)

def enter (l p : Nat) : Tables where
  physical := update t.physical l (some p)
  logical := update t.logical p (some l)

-- Gives up what is on a physical qubit.
def vacate (p : Nat) : Tables :=
  match t.logical p with
  | some l => ⟨update t.physical l none, update t.logical p none⟩
  | none => t

def flip : Tables := ⟨t.logical, t.physical⟩

-- Gives up the place of a logical qubit.
def lift (l : Nat) : Tables := (t.flip.vacate l).flip

def place (l p : Nat) : Tables := ((t.vacate p).lift l).enter l p

-- Enters what was taken off another qubit, if anything was there.
def settle (p : Nat) : Option Nat → Tables
  | some l => t.enter l p
  | none => t

-- Takes both occupants off, the second after the first, and then enters them the other way round.
def swap (a b : Nat) : Tables :=
  let cleared := update t.logical a none
  let t' : Tables := { t with logical := update cleared b none }
  (t'.settle b (t.logical a)).settle a (cleared b)

-- The tables have what the layout has.
structure Agrees (t : Tables) (lay : Layout) : Prop where
  physical : ∀ l, t.physical l = lay.physical? l
  logical : ∀ p, t.logical p = lay.logical? p

variable {t : Tables}

-- One table is the other one read backwards.
def Inverse (t : Tables) : Prop :=
  ∀ l p, t.physical l = some p ↔ t.logical p = some l

theorem Agrees.inverse (h : t.Agrees lay) : t.Inverse := by
  intro l p
  rw [h.physical, h.logical, logical?_eq_some_iff]

namespace Inverse

theorem flip (h : t.Inverse) : t.flip.Inverse :=
  fun l p => (h p l).symm

theorem physical_vacate (h : t.Inverse) (p l : Nat) :
    (t.vacate p).physical l = (t.physical l).filter (· ≠ p) := by
  refine Option.ext fun q => ?_
  have here := h l p
  cases found : t.logical p <;> simp only [vacate, found, update_apply, Option.filter_eq_some_iff]
  case none => grind
  case some => grind

theorem logical_vacate (t : Tables) (p q : Nat) :
    (t.vacate p).logical q = if q = p then none else t.logical q := by
  cases found : t.logical p <;> simp only [vacate, found, update_apply]
  case none => grind

theorem vacate (h : t.Inverse) (p : Nat) : (t.vacate p).Inverse := by
  intro l q
  rw [h.physical_vacate, logical_vacate, Option.filter_eq_some_iff, h l q]
  grind

end Inverse

section Settle

variable (t : Tables) (x : Option Nat)

theorem physical_settle (p l : Nat) :
    (t.settle p x).physical l = if x = some l then some p else t.physical l := by
  cases x <;> simp [settle, enter, update_apply, eq_comm]

theorem logical_settle (p q : Nat) :
    (t.settle p x).logical q = if q = p then x.or (t.logical q) else t.logical q := by
  cases x <;> simp [settle, enter, update_apply]

end Settle

namespace Agrees

theorem place (h : t.Agrees lay) (l p : Nat) : (t.place l p).Agrees (lay.place l p) where
  physical l' := by
    have lifted : ((t.vacate p).lift l).physical l' =
        if l' = l then none else (t.vacate p).physical l' := Inverse.logical_vacate ..
    rw [physical?_place, ← h.physical]
    simp only [Tables.place, enter, update_apply, lifted, h.inverse.physical_vacate]
    split <;> rfl
  logical q := by
    have lifted : ((t.vacate p).lift l).logical q = ((t.vacate p).logical q).filter (· ≠ l) :=
      (h.inverse.vacate p).flip.physical_vacate ..
    rw [logical?_place, ← h.logical]
    simp only [Tables.place, enter, update_apply, lifted, Inverse.logical_vacate]
    split <;> rfl

theorem swap (h : t.Agrees lay) (a b : Nat) : (t.swap a b).Agrees (lay.swap a b) where
  physical l := by
    have first : t.logical a = some l ↔ t.physical l = some a := (h.inverse l a).symm
    have second : t.logical b = some l ↔ t.physical l = some b := (h.inverse l b).symm
    rw [physical?_swap, ← h.physical]
    simp only [Tables.swap, physical_settle, update_apply]
    cases found : t.physical l
    case none => grind
    case some p => grind [exchange]
  logical q := by
    rw [logical?_swap, ← h.logical]
    simp only [Tables.swap, logical_settle, update_apply]
    grind [exchange]

end Agrees

-- Tables and a layout that the same calls lead to.
inductive Tracks : Tables → Layout → Prop
  | empty : Tracks .empty .empty
  | place {t : Tables} {lay : Layout} (l p : Nat) :
    Tracks t lay → Tracks (t.place l p) (lay.place l p)
  | swap {t : Tables} {lay : Layout} (a b : Nat) :
    Tracks t lay → Tracks (t.swap a b) (lay.swap a b)

theorem Tracks.agrees (h : Tracks t lay) : t.Agrees lay := by
  induction h
  case empty => exact ⟨fun _ => rfl, fun _ => rfl⟩
  case place l p _ hi => exact hi.place l p
  case swap a b _ hi => exact hi.swap a b

-- The two tables and their changes fit together.
structure Coherent (t : Tables) : Prop where
  inverse : t.Inverse
  size : {l | (t.physical l).isSome}.ncard = {p | (t.logical p).isSome}.ncard
  swap_logical : ∀ a b p, (t.swap a b).logical p =
    if p = a then t.logical b else if p = b then t.logical a else t.logical p
  swap_physical : ∀ a b l, (t.swap a b).physical l = (t.physical l).map (exchange a b)
  swap_swap : ∀ a b, (t.swap a b).swap a b = t
  place : ∀ l p l' p', (t.place l p).physical l' = some p' ↔
    (l' = l ∧ p' = p) ∨ (l' ≠ l ∧ p' ≠ p ∧ t.physical l' = some p')

namespace Agrees

theorem unique {t' : Tables} (h : t.Agrees lay) (h' : t'.Agrees lay) : t = t' := by
  have physical : t.physical = t'.physical := funext fun l => (h.physical l).trans (h'.physical l).symm
  have logical : t.logical = t'.logical := funext fun p => (h.logical p).trans (h'.logical p).symm
  cases t
  cases t'
  cases physical
  cases logical
  rfl

-- Tables change as the layout does that they agree with.
theorem coherent (h : t.Agrees lay) : t.Coherent where
  inverse := h.inverse
  size := by
    simp only [h.physical, h.logical]
    rw [← size_eq_ncard_placed, ← size_eq_ncard]
  swap_logical a b p := by
    rw [(h.swap a b).logical, logical?_swap_eq, h.logical, h.logical, h.logical]
  swap_physical a b l := by rw [(h.swap a b).physical, physical?_swap, h.physical]
  swap_swap a b := by
    have twice := (h.swap a b).swap a b
    rw [Layout.swap_swap] at twice
    exact twice.unique h
  place l p l' p' := by
    rw [(h.place l p).physical, physical?_place_eq_some_iff, h.physical]

end Agrees

end Tables

open Tables

-- The layouts that calls lead to.
inductive Obtained : Layout → Prop
  | empty : Obtained .empty
  | trivial (n : Nat) : Obtained (.trivial n)
  | ofPairs {pairs : List (Nat × Nat)} {lay : Layout} :
    Layout.ofPairs pairs = .ok lay → Obtained lay
  | ofPhysical {physical : List Nat} {lay : Layout} :
    Layout.ofPhysical physical = .ok lay → Obtained lay
  | place {lay : Layout} (l p : Nat) : Obtained lay → Obtained (lay.place l p)
  | swap {lay : Layout} (a b : Nat) : Obtained lay → Obtained (lay.swap a b)

-- What is still free is placed as any other pair.
theorem of_placeNew (h : lay.placeNew l p = .ok lay') : lay' = lay.place l p := by
  rw [placeNew] at h
  split at h
  case isTrue => contradiction
  case isFalse =>
    split at h
    case h_1 => contradiction
    case h_2 => exact (Except.ok.inj h).symm

theorem exists_tracks_of_ofPairs {pairs : List (Nat × Nat)} (h : ofPairs pairs = .ok lay) :
    ∃ t, Tracks t lay := by
  refine of_foldlM_eq_ok (fun lay => ∃ t, Tracks t lay) ?_ ⟨_, .empty⟩ h
  intro lay x lay' made step
  have ⟨t, tracks⟩ := made
  exact ⟨_, of_placeNew step ▸ tracks.place x.1 x.2⟩

theorem exists_tracks_trivial (n : Nat) : ∃ t, Tracks t (trivial n) := by
  induction n
  case zero => exact ⟨_, .empty⟩
  case succ n hi =>
    have ⟨t, tracks⟩ := hi
    have step : trivial (n + 1) = (trivial n).place n n := by
      simp [trivial, List.range_succ]
    exact ⟨_, step ▸ tracks.place n n⟩

theorem Obtained.exists_tracks (h : lay.Obtained) : ∃ t, Tracks t lay := by
  induction h
  case empty => exact ⟨_, .empty⟩
  case trivial n => exact exists_tracks_trivial n
  case ofPairs eq => exact exists_tracks_of_ofPairs eq
  case ofPhysical eq => exact exists_tracks_of_ofPairs eq
  case place l p _ hi =>
    have ⟨t, tracks⟩ := hi
    exact ⟨_, tracks.place l p⟩
  case swap a b _ hi =>
    have ⟨t, tracks⟩ := hi
    exact ⟨_, tracks.swap a b⟩

-- Both directions, the size and the changes of a layout fit together.
structure Consistent (lay : Layout) : Prop where
  tracked : ∃ t, Tracks t lay
  -- Tables that went through calls that lead to the layout have its entries, and fit together as well.
  agrees : ∀ t, Tracks t lay → t.Agrees lay
  coherent : ∀ t, Tracks t lay → t.Coherent
  inverse : ∀ l p, lay.physical? l = some p ↔ lay.logical? p = some l
  size : lay.size = {p | (lay.logical? p).isSome}.ncard
  swap : ∀ a b p, (lay.swap a b).logical? p =
    if p = a then lay.logical? b else if p = b then lay.logical? a else lay.logical? p
  swap_swap : ∀ a b, (lay.swap a b).swap a b = lay
  place : ∀ l p l' p', (lay.place l p).physical? l' = some p' ↔
    (l' = l ∧ p' = p) ∨ (l' ≠ l ∧ p' ≠ p ∧ lay.physical? l' = some p')

theorem consistent_of_obtained {lay : Layout} (h : lay.Obtained) : lay.Consistent where
  tracked := h.exists_tracks
  agrees _ tracks := tracks.agrees
  coherent _ tracks := tracks.agrees.coherent
  inverse _ _ := logical?_eq_some_iff.symm
  size := lay.size_eq_ncard
  swap := logical?_swap_eq
  swap_swap := lay.swap_swap
  place _ _ _ _ := physical?_place_eq_some_iff

-- The last qubit drives the first one, which went to a free place, away from there.
def crowded : Layout := (((trivial 3).swap 0 7).swap 2 2).place 2 7

example : crowded.pairs = [(1, 1), (2, 7)] := by decide

theorem consistent_of_obtained_crowded : crowded.Obtained ∧ crowded.Consistent :=
  have h : crowded.Obtained := (((Obtained.trivial 3).swap 0 7).swap 2 2).place 2 7
  ⟨h, consistent_of_obtained h⟩

end CircuitRouting.Layout
