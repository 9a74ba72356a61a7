import CircuitRouting.Instruction

/-!
# Seats of wires

The wires of a circuit have seats in a table, and are visited from the first seat to the last. The
kind and number of a wire are mixed into a word, and the upper bits of the word name the seat that
the wire would like; if that one is taken, the wire gets a later one. The table is kept at most seven
eighths full and doubles before it would be fuller.
-/

namespace CircuitRouting

namespace Wire

-- An odd word whose multiples are spread over all words.
def spread : UInt64 := 0xf1357aea2e62a9c5

-- The kind and the number of a wire, mixed into a word.
def mixed : Wire → UInt64
  | qubit q => q.toUInt64 * spread
  | clbit c => (spread + c.toUInt64) * spread

-- The seat that a wire would like in a table of the given size.
def home (size : Nat) (w : Wire) : Nat := (w.mixed >>> 38).toNat % size

end Wire

/-- A table of wires. Its size is zero or a power of two from four up. -/
structure Seating where
  seats : Array (Option Wire) := #[]
  count : Nat := 0
deriving Repr

namespace Seating

-- The number of wires that a table of the given size takes.
def capacity (size : Nat) : Nat := if size ≤ 8 then size - 1 else size / 8 * 7

variable (t : Seating)

-- The first free seat for a wire. Seats are tried in blocks of sixteen, and the distance from one
-- block to the next grows by a block each time.
def freeSeat? (w : Wire) : Option Nat :=
  let size := t.seats.size
  (List.range (size / 16 + 1)).findSome? fun k =>
    (List.range 16).findSome? fun j =>
      let seat := (w.home size + 8 * k * (k + 1) + j) % size
      match t.seats[seat]? with
      | some none => some seat
      | _ => none

def place (w : Wire) : Seating :=
  match t.freeSeat? w with
  | some seat => ⟨t.seats.setIfInBounds seat (some w), t.count + 1⟩
  | none => t

/-- The wires from the first seat to the last. -/
def wires : List Wire := t.seats.toList.filterMap id

-- The table at twice the size, in which the wires take their seats anew.
def grow : Seating :=
  t.wires.foldl place { seats := Array.replicate (max 4 (2 * t.seats.size)) none }

def insert (w : Wire) : Seating :=
  (if t.count < capacity t.seats.size then t else t.grow).place w

/-- The table that wires get when they come one after the other. -/
def ofWires (ws : List Wire) : Seating := ws.foldl insert {}

end Seating

end CircuitRouting
