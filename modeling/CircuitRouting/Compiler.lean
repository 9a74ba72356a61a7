import CircuitRouting.Pipeline

/-!
# The compiler

A compiler holds options that fit together. It turns a circuit into a compiled circuit: the program
that the device runs, where its qubits start and end, and the swaps that were inserted.
-/

namespace CircuitRouting

structure CompileOptions where
  couplingMap : Option CouplingMap := none
  initialLayout : Option Layout := none
  basis : Basis := .standard
  seed : Option UInt64 := none
  effort : RoutingEffort := .standard

namespace CompileOptions

variable (o : CompileOptions)

-- An initial layout needs a device and stays on it.
def checkLayout (lay : Layout) : Except CompileError Unit :=
  match o.couplingMap with
  | none => .error (.invalidLayout .needsCouplingMap)
  | some m =>
    match lay.pairs.find? fun x => m.numQubits ≤ x.2 with
    | some (l, p) => .error (.invalidLayout (.outsideDevice l p m.numQubits))
    | none => .ok ()

def validate : Except CompileError Unit := do
  o.basis.validate.mapError .invalidBasis
  match o.initialLayout with
  | none => return ()
  | some lay => o.checkLayout lay

/-- What the passes start from. -/
def properties : Properties := { couplingMap := o.couplingMap, basis := some o.basis }

end CompileOptions

/-- Measurements of a compilation. -/
structure CompileStats where
  opsBefore : Nat
  opsAfter : Nat
  depth : Nat
  cxCount : Nat
  swaps : Nat
deriving Repr, DecidableEq

structure CompiledCircuit where
  circuit : Circuit
  initialLayout : Layout
  finalLayout : Layout
  basis : Basis
  couplingMap : Option CouplingMap
  seed : UInt64
  swaps : List SwapRecord
  stats : CompileStats

namespace CompiledCircuit

def name (c : CompiledCircuit) : String := c.circuit.name

def qasm (c : CompiledCircuit) : Except CompileError String :=
  (Qasm.emit c.circuit).mapError .emit

end CompiledCircuit

namespace CompileStats

def measure (c : Circuit) (opsBefore swaps : Nat) : CompileStats where
  opsBefore := opsBefore
  opsAfter := c.dag.numOps
  depth := c.depth
  cxCount := (c.dag.countOps.lookup "cx").getD 0
  swaps := swaps

end CompileStats

/-- Options that have been checked. -/
structure Compiler where
  options : CompileOptions
  valid : options.validate = .ok ()

namespace Compiler

def ofOptions (o : CompileOptions) : Except CompileError Compiler :=
  match h : o.validate with
  | .ok () => .ok ⟨o, h⟩
  | .error e => .error e

variable (k : Compiler)

-- The compiled program with its first and last layout.
def finish (c : Circuit) (w : Workspace) : Except CompileError (Circuit × Layout × Layout) :=
  match k.options.couplingMap with
  | some m =>
    match w.properties.published.get? .initialLayout, w.properties.layout with
    | some first, some last => do
      let c ← (Circuit.ofDagWithRegisters c.name w.dag [⟨"q", m.numQubits⟩] c.cregs).mapError
        .circuit
      return (c, first, last)
    | _, _ => .error .missingLayout
  | none => do
    let same := Layout.trivial w.dag.numQubits
    let c ← (Circuit.ofDagWithRegisters c.name w.dag c.qregs c.cregs).mapError .circuit
    return (c, same, same)

-- Compiles a circuit with choices from any source; the seed is only reported.
def compileWith {σ : Type} (chooser : Chooser σ) (random : σ) (seed : UInt64) (c : Circuit) :
    Except CompileError CompiledCircuit := do
  let o := k.options
  let passes := Pipeline.passes chooser random o.effort o.initialLayout o.properties
  let (r, w) := Pipeline.run passes { dag := c.dag, properties := o.properties }
  r
  w.dag.verify.mapError .circuit
  let (compiled, first, last) ← k.finish c w
  let swaps := (w.properties.published.get? .swaps).getD []
  return {
    circuit := compiled
    initialLayout := first
    finalLayout := last
    basis := o.basis
    couplingMap := o.couplingMap
    seed := seed
    swaps := swaps
    stats := .measure compiled c.dag.numOps (List.length swaps) }

/-- Compiles a circuit; `fresh` is the seed if the options fix none. -/
def compile (fresh : UInt64) (c : Circuit) : Except CompileError CompiledCircuit :=
  let seed := k.options.seed.getD fresh
  k.compileWith Keystream.chooser (.ofSeed seed) seed c

end Compiler

end CircuitRouting
