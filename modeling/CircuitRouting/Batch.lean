import CircuitRouting.Execution
import CircuitRouting.Report

/-!
# Batches

A batch holds what became of several circuits, in the order of the request. Each succeeds or fails on
its own. If names repeat, the first entry of a name answers for it.
-/

namespace CircuitRouting

structure Batch where
  entries : List (String × Except CompileError CompiledCircuit)

namespace Compiler

/-- Compiles circuits, each with the fresh seed of its position if the options fix none. -/
def compileBatch (k : Compiler) (fresh : Nat → UInt64) (cs : List Circuit) : Batch :=
  ⟨cs.zipIdx.map fun (c, i) => (c.name, k.compile (fresh i) c)⟩

end Compiler

namespace Batch

variable (b : Batch)

def names : List String := b.entries.map Prod.fst

-- The names with whether their circuits compiled.
def outcomes : List (String × Bool) := b.entries.map fun (name, r) => (name, r.toBool)

def result? (name : String) : Option (Except CompileError CompiledCircuit) := b.entries.lookup name

def get? (name : String) : Option CompiledCircuit := (b.result? name).bind Except.toOption

def qasm? (name : String) : Option (Except CompileError String) :=
  (b.get? name).map CompiledCircuit.qasm

def config? (name : String) : Option CircuitConfig := (b.get? name).map CompiledCircuit.config

/-- The summary of a circuit, or why it failed. -/
def diagnostics? (name : String) : Option String :=
  (b.result? name).map fun
    | .ok c => c.diagnostics
    | .error e => "circuit: " ++ name ++ "\n  compilation failed: " ++ e.message ++ "\n"

/-- The circuits that failed, with their errors. -/
def failures : List (String × CompileError) :=
  b.entries.filterMap fun (name, r) =>
    match r with
    | .ok _ => none
    | .error e => some (name, e)

-- Runs one entry.
def executeEntry (run : Executor) (shots : UInt64) (name : String)
    (r : Except CompileError CompiledCircuit) : Except ExecutionError Counts :=
  match r with
  | .ok c => (run c shots).bind (Counts.check shots)
  | .error _ => .error (.notCompiled name)

/-- Runs every compiled circuit; counts that do not add up are refused. -/
def execute (run : Executor) (shots : UInt64) : List (String × Except ExecutionError Counts) :=
  b.entries.map fun (name, r) => (name, executeEntry run shots name r)

end Batch

end CircuitRouting
