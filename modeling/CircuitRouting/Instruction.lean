import CircuitRouting.Gate

/-!
# Instructions

An instruction is a gate, a measurement or a barrier together with the qubits and classical bits it
acts on. Before routing a qubit number is a logical qubit, after it a physical one.
-/

namespace CircuitRouting

/-- A wire of a circuit: a qubit or a classical bit. -/
inductive Wire where
  | qubit (index : Nat)
  | clbit (index : Nat)
deriving Repr, DecidableEq, Inhabited

/-- What an instruction does. -/
inductive Action where
  | gate (g : Gate)
  | measure
  | barrier
deriving Repr, BEq, Inhabited

namespace Action

def name : Action → String
  | gate g => g.name
  | measure => "measure"
  | barrier => "barrier"

/-- How many qubits the action takes; a barrier takes any number. -/
def arity? : Action → Option Nat
  | gate g => some g.arity
  | measure => some 1
  | barrier => none

/-- The action of a name; only gates read the parameters. -/
def ofName (name : String) (params : List Float) : Except GateError Action :=
  if name = "measure" then .ok .measure
  else if name = "barrier" then .ok .barrier
  else (Gate.ofName name params).map .gate

end Action

/-- An action on operands. The control of a controlled gate comes first. -/
structure Instruction where
  action : Action
  qubits : List Nat
  clbits : List Nat := []
deriving Repr, BEq, Inhabited

namespace Instruction

def gate (g : Gate) (qubits : List Nat) : Instruction := ⟨.gate g, qubits, []⟩

def measure (q c : Nat) : Instruction := ⟨.measure, [q], [c]⟩

def barrier (qubits : List Nat) : Instruction := ⟨.barrier, qubits, []⟩

/-- The controlled NOT. -/
def cx (control target : Nat) : Instruction := gate .cx [control, target]

def name (i : Instruction) : String := i.action.name

def gate? (i : Instruction) : Option Gate :=
  match i.action with
  | .gate g => some g
  | _ => none

def isGate (i : Instruction) : Bool := i.gate?.isSome

def isMeasure (i : Instruction) : Bool :=
  match i.action with
  | .measure => true
  | _ => false

def isBarrier (i : Instruction) : Bool :=
  match i.action with
  | .barrier => true
  | _ => false

def isCx (i : Instruction) : Bool :=
  match i.action with
  | .gate .cx => true
  | _ => false

/-- A gate on exactly one qubit. -/
def isOneQubitGate (i : Instruction) : Bool := i.isGate && i.qubits.length == 1

/-- The operands of a gate on exactly two qubits. -/
def pair? (i : Instruction) : Option (Nat × Nat) :=
  match i.action, i.qubits with
  | .gate _, [a, b] => some (a, b)
  | _, _ => none

def isTwoQubitGate (i : Instruction) : Bool := i.pair?.isSome

/-- The wires an instruction touches: its qubits, then its classical bits. -/
def wires (i : Instruction) : List Wire := i.qubits.map .qubit ++ i.clbits.map .clbit

/-- The name of the gate, for messages about gates only. -/
def gateName? (i : Instruction) : Option String := i.gate?.map Gate.name

/-- The instruction with every qubit passed through `f`, stopping at its first failure. -/
def mapQubitsM {ε : Type} (f : Nat → Except ε Nat) (i : Instruction) : Except ε Instruction :=
  (i.qubits.mapM f).map fun qs => { i with qubits := qs }

end Instruction

end CircuitRouting
