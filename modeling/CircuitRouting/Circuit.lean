import CircuitRouting.Dag.Edit
import CircuitRouting.Dag.Integrity
import CircuitRouting.Numeric.Sum

/-!
# Circuits

A circuit is a graph of operations whose wires are addressed by registers. Qubits are numbered in
the order of the registers: the first of a register follows the last of the register before it, and
likewise for classical bits.
-/

namespace CircuitRouting

structure Register where
  name : String
  size : Nat
deriving Repr, DecidableEq, Inhabited

/-- A position in a register. -/
structure BitRef where
  register : String
  index : Nat
deriving Repr, DecidableEq, Inhabited

namespace BitRef

def text (b : BitRef) : String := b.register ++ "[" ++ toString b.index ++ "]"

end BitRef

namespace Register

/-- The positions of a register. -/
def bits (r : Register) : List BitRef := (List.range r.size).map (⟨r.name, ·⟩)

-- The positions of all registers, in order: the place of a position is its number.
def allBits (rs : List Register) : List BitRef := rs.flatMap bits

/-- The number of bits of all registers. -/
def total (rs : List Register) : Nat := natSum (rs.map size)

-- The number of a position, counted from `offset` on; the first register of the name decides.
def locateFrom (register : String) (index : Nat) :
    (offset : Nat) → List Register → Except CircuitError Nat
  | _, [] => .error (.unknownRegister register)
  | offset, r :: rs =>
    if r.name = register then
      if index < r.size then .ok (offset + index)
      else .error (.indexOutOfRange register index r.size)
    else locateFrom register index (offset + r.size) rs

def locate (rs : List Register) (register : String) (index : Nat) : Except CircuitError Nat :=
  locateFrom register index 0 rs

end Register

structure Circuit where
  name : String
  qregs : List Register := []
  cregs : List Register := []
  dag : Dag := {}
deriving Repr, Inhabited

namespace Circuit

/-- A circuit without registers. -/
def named (name : String) : Circuit := { name }

variable (c : Circuit)

def qubits : List BitRef := Register.allBits c.qregs

def clbits : List BitRef := Register.allBits c.cregs

def numQubits : Nat := Register.total c.qregs

def numClbits : Nat := Register.total c.cregs

-- The numbers that a register of this size takes next.
def freshIds (used size : Nat) : List Nat := (List.range size).map (used + ·)

def pushQreg (r : Register) : List Nat × Circuit :=
  let ids := freshIds c.numQubits r.size
  (ids, { c with qregs := c.qregs ++ [r], dag := ids.foldl Dag.addQubit c.dag })

def pushCreg (r : Register) : List Nat × Circuit :=
  let ids := freshIds c.numClbits r.size
  (ids, { c with cregs := c.cregs ++ [r], dag := ids.foldl Dag.addClbit c.dag })

/-- Declares a quantum register; returns the numbers of its qubits. -/
def addQreg (name : String) (size : Nat) : Except CircuitError (List Nat × Circuit) :=
  if c.qregs.any fun r => r.name == name then .error (.duplicateRegister name)
  else .ok (c.pushQreg ⟨name, size⟩)

/-- Declares a classical register; returns the numbers of its bits. -/
def addCreg (name : String) (size : Nat) : Except CircuitError (List Nat × Circuit) :=
  if c.cregs.any fun r => r.name == name then .error (.duplicateRegister name)
  else .ok (c.pushCreg ⟨name, size⟩)

/-- A circuit with a register `q` and a register `c`, each left out if it is empty. -/
def ofSize (name : String) (qubits clbits : Nat) : Circuit :=
  let c := named name
  let c := if 0 < qubits then (c.pushQreg ⟨"q", qubits⟩).2 else c
  if 0 < clbits then (c.pushCreg ⟨"c", clbits⟩).2 else c

def qubit (register : String) (index : Nat) : Except CircuitError Nat :=
  Register.locate c.qregs register index

def clbit (register : String) (index : Nat) : Except CircuitError Nat :=
  Register.locate c.cregs register index

/-- Appends an instruction; returns its node. -/
def apply (i : Instruction) : Except CircuitError (Nat × Circuit) :=
  (c.dag.apply i).map fun (n, d) => (n, { c with dag := d })

/-- Appends instructions one after the other. -/
def applyAll (is : List Instruction) : Except CircuitError Circuit :=
  (c.dag.applyAll is).map fun d => { c with dag := d }

/-- The barrier on all qubits of the circuit. -/
def fullBarrier : Instruction := .barrier (List.range c.numQubits)

def depth : Nat := c.dag.depth

/-- A circuit over a graph, with the default registers. -/
def ofDag (d : Dag) : Circuit where
  name := "circuit"
  qregs := [⟨"q", d.numQubits⟩].filter fun r => 0 < r.size
  cregs := [⟨"c", d.numClbits⟩].filter fun r => 0 < r.size
  dag := d

/-- A circuit over a graph whose wires the registers cover; empty registers are dropped. -/
def ofDagWithRegisters (name : String) (d : Dag) (qregs cregs : List Register) :
    Except CircuitError Circuit :=
  if Register.total qregs ≠ d.numQubits then
    .error (.registerSizes .quantum (Register.total qregs) d.numQubits)
  else if Register.total cregs ≠ d.numClbits then
    .error (.registerSizes .classical (Register.total cregs) d.numClbits)
  else
    .ok {
      name := name
      qregs := qregs.filter fun r => 0 < r.size
      cregs := cregs.filter fun r => 0 < r.size
      dag := d }

-- The measurement of each of the first `n` qubits into the bit of its number.
def measureAll (n : Nat) : List Instruction :=
  (List.range n).map fun i => .measure i i

-- A chain of controlled NOTs along the first `n` qubits.
def cxChain (n : Nat) : List Instruction :=
  (List.range (n - 1)).map fun i => .cx i (i + 1)

/-- The preparation and measurement of a Bell pair. -/
def bell : Except CircuitError Circuit :=
  (ofSize "bell" 2 2).applyAll (.gate .h [0] :: cxChain 2 ++ measureAll 2)

/-- The preparation and measurement of a cat state on `n` qubits. -/
def ghz (n : Nat) : Except CircuitError Circuit :=
  (ofSize "ghz" n n).applyAll
    (if n = 0 then [] else .gate .h [0] :: cxChain n ++ measureAll n)

end Circuit

end CircuitRouting
