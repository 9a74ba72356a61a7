import CircuitRouting.CompileError
import CircuitRouting.Properties

/-!
# Passes

A pass works on a circuit graph and the properties that go with it. A pass that fails hands back what
it has done so far together with the error.
-/

namespace CircuitRouting

/-- What a pass works on. -/
structure Workspace where
  dag : Dag
  properties : Properties := {}
deriving Inhabited

/-- The outcome of an edit of the circuit graph, which stays as the edit left it. -/
def Workspace.edit (w : Workspace) (r : Except CircuitError Unit × Dag) :
    Except CompileError Unit × Workspace :=
  (r.1.mapError .circuit, { w with dag := r.2 })

/-- Whether a pass changes the circuit or only publishes results. -/
inductive PassKind where
  | analysis
  | transformation
deriving Repr, DecidableEq

structure Pass where
  name : String
  kind : PassKind
  shouldRun : Workspace → Bool := fun _ => true
  run : Workspace → Except CompileError Unit × Workspace

namespace Pass

/-- The outcome of a step that either succeeds or leaves the workspace as it was. -/
def allOrNothing (w : Workspace) (r : Except CompileError Workspace) :
    Except CompileError Unit × Workspace :=
  match r with
  | .ok w' => (.ok (), w')
  | .error e => (.error e, w)

/-- Publishes the number of operations. -/
def operationCount : Pass where
  name := "Count"
  kind := .analysis
  run w := (.ok (), { w with
    properties := { w.properties with
      published := w.properties.published.insert .operationCount w.dag.numOps } })

end Pass

end CircuitRouting
