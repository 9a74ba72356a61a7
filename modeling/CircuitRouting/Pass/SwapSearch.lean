import CircuitRouting.CouplingMap.Distance
import CircuitRouting.Layout
import CircuitRouting.Random.Chooser

/-!
# The search for swaps

The positions of some gates' operands are brought next to each other by swaps along the edges of a
device. Each trial draws its swaps at random, one that lowers the cost more being more likely, and
the shortest of several trials is taken.
-/

namespace CircuitRouting

namespace SwapSearch

/-- The positions of the operands of gates. -/
abbrev Positions := List (Nat × Nat)

/-- The steps that the operands are away from being neighbours. On 4096 qubits there are at most 2048
gates that share no qubit, each with less than 4096 steps, and so the sum has 32 bits. -/
def cost? (region : DistanceTable) : Positions → Option Nat
  | [] => some 0
  | (a, b) :: rest => do
    let d ← region.distance a b
    let c ← cost? region rest
    return (d - 1) + c

/-- The positions after a swap. -/
def move (a b : Nat) (ps : Positions) : Positions :=
  ps.map fun (x, y) => (Layout.exchange a b x, Layout.exchange a b y)

-- The swaps that lower the cost, each with the square of what it gains.
def improving? (region : DistanceTable) (cost : Nat) (ps : Positions) :
    List (Nat × Nat) → Option (List ((Nat × Nat) × Nat))
  | [] => some []
  | (a, b) :: rest => do
    let c ← cost? region (move a b ps)
    let others ← improving? region cost ps rest
    return if c < cost then ((a, b), (cost - c) * (cost - c)) :: others else others

-- The operands that are not neighbours.
def unsatisfied (region : DistanceTable) (ps : Positions) : Positions :=
  ps.filter fun (a, b) =>
    match region.distance a b with
    | some d => 1 < d
    | none => true

-- The first two qubits of a path.
def firstStep? : List Nat → Option (Nat × Nat)
  | a :: b :: _ => some (a, b)
  | _ => none

variable {σ : Type} (chooser : Chooser σ) (region : DistanceTable) (candidates : List (Nat × Nat))

-- A step of one operand, drawn at random, toward its partner.
def stepToward (ps : Positions) : StateM σ (Option (Nat × Nat)) := fun s =>
  let waiting := unsatisfied region ps
  if h : 0 < waiting.length then
    let (i, s) := chooser.uniform waiting.length h s
    let (a, b) := waiting[i]
    ((region.map.shortestPath a b).bind firstStep?, s)
  else (none, s)

-- The next swap: drawn among those that lower the cost, or else a step toward a partner.
def nextSwap (cost : Nat) (ps : Positions) : StateM σ (Option (Nat × Nat)) := fun s =>
  match improving? region cost ps candidates with
  | none => (none, s)
  | some [] => stepToward chooser region ps s
  | some choices =>
    let weights := choices.map Prod.snd
    if h : 0 < natSum weights then
      let (i, s) := chooser.weighted weights h s
      ((choices[i]?).map Prod.fst, s)
    else (none, s)

/-- One random attempt of at most `cap` swaps. -/
def trial : (cap : Nat) → Positions → StateM σ (Option (List (Nat × Nat)))
  | cap, ps => fun s =>
    match cost? region ps with
    | none => (none, s)
    | some 0 => (some [], s)
    | some (cost + 1) =>
      match cap with
      | 0 => (none, s)
      | cap + 1 =>
        match nextSwap chooser region candidates (cost + 1) ps s with
        | (none, s) => (none, s)
        | (some (a, b), s) =>
          let (rest, s) := trial cap (move a b ps) s
          (rest.map ((a, b) :: ·), s)

-- The shorter of two results, the earlier if they are equally long.
def shorter (best : Option (List (Nat × Nat))) (swaps : List (Nat × Nat)) : List (Nat × Nat) :=
  match best with
  | none => swaps
  | some b => if swaps.length < b.length then swaps else b

/-- The shortest result of several trials; a result of at most one swap ends the search. -/
def search (cap : Nat) (ps : Positions) :
    (trials : Nat) → Option (List (Nat × Nat)) → StateM σ (Option (List (Nat × Nat)))
  | 0, best => fun s => (best, s)
  | trials + 1, best => fun s =>
    match trial chooser region candidates cap ps s with
    | (none, s) => search cap ps trials best s
    | (some swaps, s) =>
      let best := shorter best swaps
      if best.length ≤ 1 then (some best, s) else search cap ps trials (some best) s

end SwapSearch

end CircuitRouting
