import CircuitRouting.Pass.Cancellation
import CircuitRouting.Pass.Direction
import CircuitRouting.Pass.Fusion
import CircuitRouting.Pass.Placement
import CircuitRouting.Pass.Routing

/-!
# The pipeline

Expansion, then placement, routing and orientation if there is a device to route for, then
cancellation and fusion.
-/

namespace CircuitRouting

namespace Pipeline

/-- The standard passes, with choices from any source. -/
def passes {σ : Type} (chooser : Chooser σ) (random : σ) (effort : RoutingEffort)
    (given : Option Layout) (p : Properties) : List Pass :=
  let device :=
    if p.couplingMap.isSome then
      [Pass.placement given, Pass.routing chooser random effort, Pass.direction]
    else []
  Pass.expansion :: device ++ [Pass.cancellation, Pass.fusion]

/-- Runs the passes that apply, up to the first error. -/
def run : List Pass → Workspace → Except CompileError Unit × Workspace
  | [], w => (.ok (), w)
  | p :: ps, w =>
    if p.shouldRun w then
      match p.run w with
      | (.ok _, w) => run ps w
      | (.error e, w) => (.error e, w)
    else run ps w

end Pipeline

end CircuitRouting
