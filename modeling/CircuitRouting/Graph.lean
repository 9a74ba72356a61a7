import CircuitRouting.Instruction

/-!
# Wire graphs

A graph whose nodes are numbered and whose edges each carry a wire. A number freed by a removal is
given to the next node that is added, the number freed last first. Edges are kept newest first, and
a node's neighbour on a wire is the one at the newest edge.
-/

namespace CircuitRouting

/-- A node: the start of a wire, its end, or an operation. -/
inductive Node where
  | input (w : Wire)
  | output (w : Wire)
  | op (i : Instruction)
deriving Repr, BEq, Inhabited

namespace Node

def instruction? : Node → Option Instruction
  | op i => some i
  | _ => none

def isOp (n : Node) : Bool := n.instruction?.isSome

end Node

/-- A segment of a wire from one node to the next. -/
structure Edge where
  source : Nat
  target : Nat
  wire : Wire
deriving Repr, DecidableEq

structure Graph where
  slots : Array (Option Node) := #[]
  freed : List Nat := []
  edges : List Edge := []
deriving Repr, BEq, Inhabited

namespace Graph

variable (g : Graph)

def node? (n : Nat) : Option Node := g.slots[n]?.join

def instruction? (n : Nat) : Option Instruction := (g.node? n).bind Node.instruction?

/-- The numbers in use, in ascending order. -/
def nodes : List Nat := (List.range g.slots.size).filter fun n => (g.node? n).isSome

/-- The number that the next added node will get. -/
def nextNumber : Nat := g.freed.headD g.slots.size

/-- Adds a node under `nextNumber`. -/
def add (x : Node) : Graph :=
  match g.freed with
  | [] => { g with slots := g.slots.push (some x) }
  | n :: rest => { g with slots := g.slots.setIfInBounds n (some x), freed := rest }

/-- Removes a node and all its edges. -/
def remove (n : Nat) : Graph where
  slots := g.slots.setIfInBounds n none
  freed := n :: g.freed
  edges := g.edges.filter fun e => e.source != n && e.target != n

def link (source target : Nat) (w : Wire) : Graph :=
  { g with edges := ⟨source, target, w⟩ :: g.edges }

/-- Removes the newest edge between two nodes on a wire. -/
def unlink (source target : Nat) (w : Wire) : Graph :=
  { g with edges := g.edges.erase ⟨source, target, w⟩ }

def successor? (n : Nat) (w : Wire) : Option Nat :=
  (g.edges.find? fun e => e.source == n && e.wire == w).map Edge.target

def predecessor? (n : Nat) (w : Wire) : Option Nat :=
  (g.edges.find? fun e => e.target == n && e.wire == w).map Edge.source

def incoming (n : Nat) : List Edge := g.edges.filter fun e => e.target == n

def outgoing (n : Nat) : List Edge := g.edges.filter fun e => e.source == n

end Graph

end CircuitRouting
