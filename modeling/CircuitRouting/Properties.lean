import CircuitRouting.CouplingMap.Basic
import CircuitRouting.Basis
import CircuitRouting.Layout

/-!
# What passes share

A store holds at most one value for each key, and the key fixes the type of its value. Passes share
the target and the current layout, and publish their results in a store.
-/

namespace CircuitRouting

/-- At most one value for each key. -/
structure Store (κ : Type) (β : κ → Type) where
  get? : (k : κ) → Option (β k)

namespace Store

variable {κ : Type} {β : κ → Type}

def empty : Store κ β := ⟨fun _ => none⟩

instance : Inhabited (Store κ β) := ⟨empty⟩

variable [DecidableEq κ]

-- Replaces what is stored under a key, if anything is to be.
def set (s : Store κ β) (k : κ) (v : Option (β k)) : Store κ β :=
  ⟨fun k' => if h : k = k' then h ▸ v else s.get? k'⟩

def insert (s : Store κ β) (k : κ) (v : β k) : Store κ β := s.set k (some v)

def remove (s : Store κ β) (k : κ) : Store κ β := s.set k none

def modify (s : Store κ β) (k : κ) (f : β k → β k) : Store κ β := s.set k ((s.get? k).map f)

@[simp]
theorem get?_set_self (s : Store κ β) (k : κ) (v : Option (β k)) : (s.set k v).get? k = v := by
  simp [set]

theorem get?_set_ne (s : Store κ β) {k k' : κ} (v : Option (β k)) (h : k ≠ k') :
    (s.set k v).get? k' = s.get? k' := by
  simp [set, h]

end Store

/-- A swap that routing inserted: before which layer, and on which physical qubits. -/
structure SwapRecord where
  layer : Nat
  first : Nat
  second : Nat
deriving Repr, DecidableEq

/-- What passes publish. -/
inductive Artifact where
  | initialLayout
  | swaps
  | operationCount
deriving Repr, DecidableEq

/-- The type of a published value. -/
def Artifact.Value : Artifact → Type
  | initialLayout => Layout
  | swaps => List SwapRecord
  | operationCount => Nat

structure Properties where
  layout : Option Layout := none
  couplingMap : Option CouplingMap := none
  basis : Option Basis := none
  published : Store Artifact Artifact.Value := .empty
deriving Inhabited

namespace Properties

/-- The basis to compile to: the given one or the standard one. -/
def targetBasis (p : Properties) : Basis := p.basis.getD .standard

end Properties

end CircuitRouting
