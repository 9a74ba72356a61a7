import CircuitRouting.CircuitError
import CircuitRouting.Graph.Order

/-!
# Circuit graphs

A circuit graph holds a path for each wire, from the wire's input node through the operations on it
to its output node.
-/

namespace CircuitRouting

/-- Whether qubit numbers name program qubits or device positions. -/
inductive Level where
  | logical
  | physical
deriving Repr, DecidableEq, Inhabited

/-- The two ends of a wire, and the node just before its output. -/
structure WireEnds where
  wire : Wire
  input : Nat
  output : Nat
  front : Nat
deriving Repr, DecidableEq

structure Dag where
  graph : Graph := {}
  wires : List WireEnds := []
  level : Level := .logical
deriving Repr, BEq, Inhabited

namespace Dag

def empty : Dag := {}

variable (d : Dag)

def ends? (w : Wire) : Option WireEnds := d.wires.find? fun e => e.wire == w

def hasWire (w : Wire) : Bool := (d.ends? w).isSome

-- Adds a wire; an existing wire stays as it is.
def addWire (w : Wire) : Dag :=
  if d.hasWire w then d
  else
    let input := d.graph.nextNumber
    let g := d.graph.add (.input w)
    let output := g.nextNumber
    let g := g.add (.output w)
    { d with
      graph := g.link input output w
      wires := d.wires ++ [⟨w, input, output, input⟩] }

def addQubit (q : Nat) : Dag := d.addWire (.qubit q)

def addClbit (c : Nat) : Dag := d.addWire (.clbit c)

/-- A graph with the given wires and no operations. -/
def ofWires (qubits clbits : List Nat) (level : Level) : Dag :=
  clbits.foldl addClbit (qubits.foldl addQubit { level })

/-- The edges of the graph by their ends. -/
def wiring : Wiring := d.graph.wiring

def node? (n : Nat) : Option Node := d.graph.node? n

def instruction? (n : Nat) : Option Instruction := d.graph.instruction? n

def predecessor? (n : Nat) (w : Wire) : Option Nat := d.graph.predecessor? n w

def successor? (n : Nat) (w : Wire) : Option Nat := d.graph.successor? n w

/-- The qubits in ascending order. -/
def qubits : List Nat :=
  sortUnique natLt <| d.wires.filterMap fun e =>
    match e.wire with
    | .qubit q => some q
    | .clbit _ => none

/-- The classical bits in ascending order. -/
def clbits : List Nat :=
  sortUnique natLt <| d.wires.filterMap fun e =>
    match e.wire with
    | .clbit c => some c
    | .qubit _ => none

def numQubits : Nat := d.qubits.length

def numClbits : Nat := d.clbits.length

/-- The number of operations: the nodes that are not the end of a wire. -/
def numOps : Nat := d.graph.nodes.length - 2 * d.wires.length

/-- The operation nodes, in ascending order, with their instructions. -/
def opNodes : List (Nat × Instruction) :=
  d.graph.nodes.filterMap fun n => (d.instruction? n).map (n, ·)

/-- How often each instruction name occurs, in the order of the names. -/
def countOps : List (String × Nat) :=
  let names := d.opNodes.map (·.2.name)
  (sortUnique textLt names).map fun name => (name, names.count name)

end Dag

end CircuitRouting
