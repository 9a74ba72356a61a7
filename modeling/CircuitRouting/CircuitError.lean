import CircuitRouting.Instruction

/-!
# What can be wrong with a circuit

Each error names its cause; `message` words it.
-/

namespace CircuitRouting

/-- The kind of a register. -/
inductive RegisterKind where
  | quantum
  | classical
deriving Repr, DecidableEq

/-- A fault in the structure of a circuit graph, or in an edit of it. -/
inductive Defect where
  | measureOperands (got : Nat)
  | missingOutputEdge (w : Wire)
  | brokenAround (w : Wire) (node : Nat)
  | notAnOperation
  | foreignWire (name : String) (w : Wire)
  | cycle
  | brokenAfter (w : Wire) (node : Nat)
  | endless (w : Wire)
  | edgeCount (name : String) (node incoming outgoing wires : Nat)
deriving Repr, DecidableEq

inductive CircuitError where
  | qubitNotFound (qubit : Nat) (gate : Option String)
  | clbitNotFound (clbit : Nat) (gate : Option String)
  | invalidGraph (defect : Defect)
  | invalidNode
  | qubitCount (name : String) (expected got : Nat)
  | gate (e : GateError)
  | duplicateQubit (qubit : Nat) (gate : Option String)
  | unknownRegister (name : String)
  | duplicateRegister (name : String)
  | indexOutOfRange (register : String) (index size : Nat)
  | registerSizes (kind : RegisterKind) (declared actual : Nat)
deriving Repr, DecidableEq

namespace Wire

-- The wire in a message about the graph.
def describe : Wire → String
  | qubit q => s!"Qubit(QubitId({q}))"
  | clbit c => s!"Clbit(ClbitId({c}))"

end Wire

namespace Defect

def message : Defect → String
  | measureOperands got => s!"measure needs exactly one classical bit, got {got}"
  | missingOutputEdge w => "Missing edge into output of wire " ++ w.describe
  | brokenAround w node => "Wire " ++ w.describe ++ s!" is broken around node {node}"
  | notAnOperation => "Cannot remove non-operation node"
  | foreignWire name w =>
    s!"Replacement '{name}' touches wire " ++ w.describe ++ " outside the substituted node"
  | cycle => "Graph contains a cycle"
  | brokenAfter w node => "Wire " ++ w.describe ++ s!" is broken: no outgoing edge from node {node}"
  | endless w => "Wire " ++ w.describe ++ " does not terminate"
  | edgeCount name node incoming outgoing wires =>
    s!"Operation '{name}' at node {node} has {incoming} in / {outgoing} out edges for {wires} wires"

end Defect

namespace GateError

def message : GateError → String
  | unknown name => s!"Unknown gate '{name}'"
  | parameterCount name expected got => s!"Gate '{name}' takes {expected} parameters, got {got}"

end GateError

namespace RegisterKind

def name : RegisterKind → String
  | quantum => "quantum"
  | classical => "classical"

end RegisterKind

namespace CircuitError

-- The gate of a message, if it is about one.
def context : Option String → String
  | some name => s!" (gate: {name})"
  | none => ""

def message : CircuitError → String
  | qubitNotFound q g => s!"Qubit q{q} not found in circuit" ++ context g
  | clbitNotFound c g => s!"Classical bit c{c} not found in circuit" ++ context g
  | invalidGraph d => "Invalid DAG structure: " ++ d.message
  | invalidNode => "Invalid node index"
  | qubitCount name expected got => s!"Gate '{name}' requires {expected} qubits, got {got}"
  | gate e => e.message
  | duplicateQubit q g => s!"Duplicate qubit q{q} in operation" ++ context g
  | unknownRegister name => s!"Unknown register '{name}'"
  | duplicateRegister name => s!"Register '{name}' is already declared"
  | indexOutOfRange register index size =>
    s!"Index {index} out of range for register '{register}' of size {size}"
  | registerSizes kind declared actual =>
    let kindName := kind.name
    s!"Registers declare {declared} {kindName} wires but the DAG has {actual}"

end CircuitError

end CircuitRouting
