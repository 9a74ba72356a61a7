import CircuitRouting.Compiler
import CircuitRouting.Json.Decode
import CircuitRouting.Json.Parser
import CircuitRouting.Json.Printer

/-!
# Reports on compiled circuits

The configuration that a circuit was compiled with, as JSON, and a summary for people.
-/

namespace CircuitRouting

namespace CouplingMap

/-- The targets of each control, under its number. -/
def toJson (m : CouplingMap) : Json :=
  .record (m.adjacency.map fun (q, ts) => (toString q, .arr (ts.map .nat)))

def ofJson? (j : Json) : Option CouplingMap := do
  let adjacency ← j.indexed? (Json.list? Json.nat32?)
  (ofAdjacency adjacency).toOption

end CouplingMap

namespace Layout

/-- Pairs of a logical and a physical qubit. -/
def toJson (lay : Layout) : Json := .arr (lay.pairs.map fun (l, p) => .arr [.nat l, .nat p])

def pairOfJson? : Json → Option (Nat × Nat)
  | .arr [l, p] => do return (← l.nat32?, ← p.nat32?)
  | _ => none

def ofJson? (j : Json) : Option Layout := do
  let pairs ← j.list? pairOfJson?
  (ofPairs pairs).toOption

end Layout

/-- What a circuit was compiled for; the layout is the last one, if the circuit was routed. -/
structure CircuitConfig where
  basis : Basis
  couplingMap : Option CouplingMap
  layout : Option Layout
  seed : UInt64
deriving Repr, DecidableEq

namespace CircuitConfig

def fields : List String := ["basis_gates", "coupling_map", "layout", "seed"]

def orNull {α : Type} (f : α → Json) : Option α → Json
  | some a => f a
  | none => .null

def toJson (c : CircuitConfig) : Json :=
  .record (fields.zip [
    .arr (c.basis.gates.map .str),
    orNull CouplingMap.toJson c.couplingMap,
    orNull Layout.toJson c.layout,
    .nat c.seed.toNat])

def ofJson? (j : Json) : Option CircuitConfig := do
  match ← j.record? false fields with
  | [some basis, map, layout, some seed] =>
    return {
      basis := ⟨← basis.list? Json.text?⟩
      couplingMap := ← Json.optional? CouplingMap.ofJson? map
      layout := ← Json.optional? Layout.ofJson? layout
      seed := (← seed.nat64?).toUInt64 }
  | _ => none

def parse? (s : String) : Option CircuitConfig := (Json.parse? s).bind ofJson?

end CircuitConfig

namespace CompiledCircuit

variable (c : CompiledCircuit)

def config : CircuitConfig where
  basis := c.basis
  couplingMap := c.couplingMap
  layout := c.couplingMap.map fun _ => c.finalLayout
  seed := c.seed

def layoutText (lay : Layout) : String :=
  " ".intercalate (lay.pairs.map fun (l, p) => s!"q{l}->{p}")

def mapText : Option CouplingMap → String
  | none => "none (all-to-all)"
  | some m =>
    let n := m.numQubits
    s!"{n} qubits, edges " ++ " ".intercalate (m.edges.map fun (a, b) => s!"{a}->{b}")

def swapsText (swaps : List SwapRecord) : String :=
  let n := swaps.length
  let texts := swaps.map fun ⟨layer, a, b⟩ => s!"{a}<->{b}@{layer}"
  if swaps.isEmpty then "0" else s!"{n} (" ++ " ".intercalate texts ++ ")"

def statsText (s : CompileStats) : String :=
  let ⟨before, after, depth, cx, _⟩ := s
  s!"{before} -> {after}, depth {depth}, cx {cx}"

/-- The lines of the summary. -/
def summary : List String := [
  "circuit: " ++ c.name,
  "  seed: " ++ toString c.seed.toNat,
  "  basis: " ++ ", ".intercalate c.basis.gates,
  "  coupling map: " ++ mapText c.couplingMap,
  "  initial layout: " ++ layoutText c.initialLayout,
  "  final layout: " ++ layoutText c.finalLayout,
  "  swaps: " ++ swapsText c.swaps,
  "  ops: " ++ statsText c.stats]

/-- The summary as text. -/
def diagnostics : String := String.join (c.summary.map (· ++ "\n"))

end CompiledCircuit

end CircuitRouting
