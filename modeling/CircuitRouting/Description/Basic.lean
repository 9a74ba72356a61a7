import CircuitRouting.Circuit

/-!
# Circuit descriptions

A description is the plain form of a circuit: its registers, and its operations in program order
with operands named by register and index.
-/

namespace CircuitRouting

structure OpDescription where
  gate : String
  params : List Float := []
  qubits : List BitRef
  clbits : List BitRef := []
deriving Repr, BEq, Inhabited

structure Description where
  name : String
  qregs : List Register := []
  cregs : List Register := []
  ops : List OpDescription := []
deriving Repr, BEq, Inhabited

namespace OpDescription

-- The instruction of a described operation: operands are looked up first, then the gate.
def resolve (c : Circuit) (op : OpDescription) : Except CircuitError Instruction := do
  let qubits ← op.qubits.mapM fun b => c.qubit b.register b.index
  let clbits ← op.clbits.mapM fun b => c.clbit b.register b.index
  let action ← (Action.ofName op.gate op.params).mapError .gate
  return ⟨action, qubits, clbits⟩

-- The description of an instruction of a circuit.
def ofInstruction (c : Circuit) (i : Instruction) : OpDescription where
  gate := i.name
  params := (i.gate?.map Gate.params).getD []
  qubits := i.qubits.map fun q => (c.qubits[q]?).getD default
  clbits := i.clbits.map fun b => (c.clbits[b]?).getD default

end OpDescription

namespace Description

/-- The circuit with the described registers and no operations. -/
def declare (d : Description) : Except CircuitError Circuit := do
  let c ← d.qregs.foldlM (fun (c : Circuit) r => (c.addQreg r.name r.size).map Prod.snd)
    (Circuit.named d.name)
  d.cregs.foldlM (fun (c : Circuit) r => (c.addCreg r.name r.size).map Prod.snd) c

-- Appends a described operation.
def append (c : Circuit) (op : OpDescription) : Except CircuitError Circuit := do
  let i ← op.resolve c
  (c.apply i).map Prod.snd

/-- Builds the described circuit. -/
def toCircuit (d : Description) : Except CircuitError Circuit := do
  d.ops.foldlM append (← d.declare)

/-- Describes a circuit, its operations in topological order. -/
def ofCircuit (c : Circuit) : Description where
  name := c.name
  qregs := c.qregs
  cregs := c.cregs
  ops := c.dag.instructions.map (OpDescription.ofInstruction c)

end Description

end CircuitRouting
