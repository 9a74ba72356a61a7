import CircuitRouting.Random.Chooser
import CircuitRouting.Random.Keystream

/-!
# Choices from a keystream

A drawn word `v` chooses `v * n / 2 ^ 64` below `n`. Words that would make some results more likely
than others are refused and drawn again.
-/

namespace CircuitRouting

namespace Keystream

-- How often a word is drawn again at most.
def maxRedraws : Nat := 1000

-- A word whose product with `n` has a lower half within `zone`.
def drawWithin (n zone : Nat) : (redraws : Nat) → Keystream → UInt64 × Keystream
  | 0, k => k.next
  | redraws + 1, k =>
    let (v, k) := k.next
    if v.toNat * n % UInt64.size ≤ zone then (v, k) else drawWithin n zone redraws k

/-- The number below `n` that a word chooses. -/
def scaled (n : Nat) (h : 0 < n) (v : UInt64) : Fin n :=
  ⟨v.toNat * n / UInt64.size, by
    rw [Nat.div_lt_iff_lt_mul (by decide), Nat.mul_comm n]
    exact Nat.mul_lt_mul_of_pos_right v.toNat_lt_size h⟩

-- The products accepted for a weighted choice.
def weightedZone (total : Nat) : Nat := UInt64.size - 1 - (UInt64.size - total) % total

-- The products accepted for a plain choice.
def uniformZone (n : Nat) : Nat := (n <<< (63 - n.log2) - 1) % UInt64.size

/-- The first position at which the running sum of the weights exceeds `x`. -/
def position : (weights : List Nat) → (x : Nat) → Nat
  | [], _ => 0
  | w :: ws, x => if x < w then 0 else position ws (x - w) + 1

theorem position_lt : ∀ (weights : List Nat) (x : Nat), x < natSum weights →
    position weights x < weights.length
  | [], x, h => absurd h (by simp)
  | w :: ws, x, h => by
    simp only [position, List.length_cons]
    split
    · omega
    · rename_i hw
      simp only [natSum_cons] at h
      exact Nat.succ_lt_succ (position_lt ws (x - w) (by omega))

def chooseWeighted (weights : List Nat) (h : 0 < natSum weights) (k : Keystream) :
    Fin weights.length × Keystream :=
  let (v, k) := drawWithin (natSum weights) (weightedZone (natSum weights)) maxRedraws k
  let x := scaled (natSum weights) h v
  (⟨position weights x, position_lt weights x x.isLt⟩, k)

def chooseUniform (n : Nat) (h : 0 < n) (k : Keystream) : Fin n × Keystream :=
  let (v, k) := drawWithin n (uniformZone n) maxRedraws k
  (scaled n h v, k)

/-- The choices of a keystream. -/
def chooser : Chooser Keystream := ⟨chooseWeighted, chooseUniform⟩

end Keystream

end CircuitRouting
