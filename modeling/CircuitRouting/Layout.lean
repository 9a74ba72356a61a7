import CircuitRouting.Sorted

/-!
# Layouts

A layout places logical qubits on physical ones, at most one on each.
-/

namespace CircuitRouting

inductive LayoutError where
  | placedTwice (logical : Nat)
  | shared (physical first second : Nat)
  | notInCircuit (logical : Nat)
  | noSuchQubit (physical size : Nat)
  | needsCouplingMap
  | outsideDevice (logical physical size : Nat)
deriving Repr, DecidableEq

namespace LayoutError

def message : LayoutError → String
  | placedTwice l => s!"logical qubit q{l} is placed twice"
  | shared p a b => s!"physical qubit {p} is shared by q{a} and q{b}"
  | notInCircuit l => s!"logical qubit q{l} is not part of the circuit"
  | noSuchQubit p size => s!"physical qubit {p} does not exist on a {size}-qubit device"
  | needsCouplingMap => "an initial layout needs a coupling map"
  | outsideDevice l p size => s!"q{l} is placed on physical qubit {p}, but the device has {size}"

end LayoutError

/-- Pairs of a logical and a physical qubit, in the order of the logical ones; none is in two pairs. -/
structure Layout where
  pairs : List (Nat × Nat) := []
  sorted : pairs.Pairwise (·.1 < ·.1) := by simp
  distinct : (pairs.map Prod.snd).Nodup := by simp
deriving Repr, DecidableEq

namespace Layout

def empty : Layout := {}

instance : Inhabited Layout := ⟨empty⟩

variable (lay : Layout)

def physical? (l : Nat) : Option Nat := (lay.pairs.find? fun x => x.1 == l).map Prod.snd

def logical? (p : Nat) : Option Nat := (lay.pairs.find? fun x => x.2 == p).map Prod.fst

-- The pairs that share no qubit with a new pair.
def others (l p : Nat) : List (Nat × Nat) := lay.pairs.filter fun x => x.1 != l && x.2 != p

theorem insertUnique_sorted {x : Nat × Nat} {ys : List (Nat × Nat)}
    (sorted : ys.Pairwise (·.1 < ·.1)) (fresh : ∀ y ∈ ys, y.1 ≠ x.1) :
    (insertUnique pairLt x ys).Pairwise (·.1 < ·.1) := by
  induction ys with
  | nil => simp [insertUnique]
  | cons y ys ih =>
    obtain ⟨above, rest⟩ := List.pairwise_cons.1 sorted
    have ne := fresh y (by simp)
    simp only [insertUnique]
    split
    · next h =>
      have h : x.1 < y.1 := by simpa [pairLt, Ne.symm ne] using h
      refine List.pairwise_cons.2 ⟨fun z hz => ?_, sorted⟩
      cases List.mem_cons.1 hz with
      | inl hz => exact hz ▸ h
      | inr hz => exact Nat.lt_trans h (above z hz)
    · split
      · next h =>
        have h : y.1 < x.1 := by simpa [pairLt, ne] using h
        refine List.pairwise_cons.2 ⟨fun z hz => ?_, ih rest fun z hz => fresh z (by simp [hz])⟩
        cases mem_of_mem_insertUnique hz with
        | inl hz => exact hz ▸ h
        | inr hz => exact above z hz
      · exact sorted

theorem insertUnique_distinct {x : Nat × Nat} {ys : List (Nat × Nat)}
    (distinct : (ys.map Prod.snd).Nodup) (fresh : ∀ y ∈ ys, y.2 ≠ x.2) :
    ((insertUnique pairLt x ys).map Prod.snd).Nodup := by
  induction ys with
  | nil => simp [insertUnique]
  | cons y ys ih =>
    obtain ⟨new, rest⟩ := List.nodup_cons.1 distinct
    have ne := fresh y (by simp)
    have fresh' : ∀ z ∈ ys, z.2 ≠ x.2 := fun z hz => fresh z (by simp [hz])
    simp only [insertUnique]
    split
    · refine List.nodup_cons.2 ⟨fun h => ?_, distinct⟩
      obtain ⟨z, hz, eq⟩ := List.mem_map.1 h
      exact fresh z hz eq
    · split
      · refine List.nodup_cons.2 ⟨fun h => ?_, ih rest fresh'⟩
        obtain ⟨z, hz, eq⟩ := List.mem_map.1 h
        cases mem_of_mem_insertUnique hz with
        | inl hz => exact ne (hz ▸ eq).symm
        | inr hz => exact new (eq ▸ List.mem_map_of_mem hz)
      · exact distinct

/-- Places `l` on `p`; what was placed on `p`, and where `l` was placed, is given up. -/
def place (l p : Nat) : Layout where
  pairs := insertUnique pairLt (l, p) (lay.others l p)
  sorted := insertUnique_sorted (lay.sorted.filter _) fun y h => by
    simp only [others, List.mem_filter, Bool.and_eq_true, bne_iff_ne] at h
    exact h.2.1
  distinct := insertUnique_distinct (lay.distinct.sublist (List.filter_sublist.map _)) fun y h => by
    simp only [others, List.mem_filter, Bool.and_eq_true, bne_iff_ne] at h
    exact h.2.2

/-- Where a swap of two physical qubits takes what is on `p`. -/
def exchange (a b p : Nat) : Nat := if p = a then b else if p = b then a else p

-- A swap undoes itself.
@[simp]
theorem exchange_exchange (a b p : Nat) : exchange a b (exchange a b p) = p := by
  grind [exchange]

theorem exchange_injective {a b p q : Nat} (h : exchange a b p = exchange a b q) : p = q := by
  rw [← exchange_exchange a b p, h, exchange_exchange]

/-- Exchanges what is on two physical qubits; either may be free. -/
def swap (a b : Nat) : Layout where
  pairs := lay.pairs.map fun (l, p) => (l, exchange a b p)
  sorted := List.pairwise_map.2 lay.sorted
  distinct := by
    rw [List.map_map]
    exact List.pairwise_map.2 <|
      (List.pairwise_map.1 lay.distinct).imp fun ne eq => ne (exchange_injective eq)

def size : Nat := lay.pairs.length

def isEmpty : Bool := lay.pairs.isEmpty

/-- The occupied physical qubits in ascending order. -/
def occupied : List Nat := sortUnique natLt (lay.pairs.map Prod.snd)

/-- Each of the first `n` qubits on the one of its number. -/
def trivial (n : Nat) : Layout := (List.range n).foldl (fun lay i => lay.place i i) empty

-- Adds a pair whose qubits are both still free.
def placeNew (l p : Nat) : Except LayoutError Layout :=
  if (lay.physical? l).isSome then .error (.placedTwice l)
  else
    match lay.logical? p with
    | some other => .error (.shared p other l)
    | none => .ok (lay.place l p)

/-- The layout of a list of pairs, none of which shares a qubit with another. -/
def ofPairs (pairs : List (Nat × Nat)) : Except LayoutError Layout :=
  pairs.foldlM (fun lay (l, p) => lay.placeNew l p) empty

/-- Each logical qubit on the physical qubit at its position. -/
def ofPhysical (physical : List Nat) : Except LayoutError Layout :=
  ofPairs ((List.range physical.length).zip physical)

end Layout

end CircuitRouting
