import CircuitRouting.Proofs.Compiler.Stages
import CircuitRouting.Proofs.Routing.Swapless

/-!
# Compilation without swaps

The seed, the number of trials and the limit on the swaps only matter to the search for swaps. A
compilation that inserts none has not searched, so it has the same outcome for all of them.
-/

namespace CircuitRouting

namespace Pass

theorem properties_direction (w : Workspace) : (direction.run w).2.properties = w.properties := by
  simp only [direction]
  split <;> rfl

end Pass

namespace Pipeline

variable {p : Pass} {ps : List Pass} {w : Workspace}

theorem properties_run (keeps : ∀ p ∈ ps, ∀ w, (p.run w).2.properties = w.properties) :
    (run ps w).2.properties = w.properties := by
  induction ps generalizing w
  case nil => rfl
  case cons p ps hi =>
    have ⟨here, later⟩ := List.forall_mem_cons.mp keeps
    rw [run]
    split
    case isFalse => exact hi later
    case isTrue =>
      have kept := here w
      split
      case h_1 w₁ eq =>
        rw [eq] at kept
        exact (hi later).trans kept
      case h_2 w₁ eq =>
        rw [eq] at kept
        exact kept

theorem properties_lowering :
    (run [.direction, .cancellation, .fusion] w).2.properties = w.properties := by
  refine properties_run fun p hp w => ?_
  simp only [List.mem_cons, List.not_mem_nil, or_false] at hp
  rcases hp with rfl | rfl | rfl
  · exact Pass.properties_direction w
  · rfl
  · rfl

end Pipeline

namespace Compiler

variable {k : Compiler} {σ τ : Type} {chooser : Chooser σ} {random : σ} {chooser' : Chooser τ}
  {random' : τ} {seed seed' : UInt64} {c : Circuit} {m : CouplingMap} {r : CompiledCircuit}
  {s : Option UInt64} {effort : RoutingEffort}

-- The same device, layout and basis with another seed and another effort.
def reseed (k : Compiler) (seed : Option UInt64) (effort : RoutingEffort) : Compiler where
  options := { k.options with seed, effort }
  valid := k.valid

theorem expand_of_compileWith (ok : k.compileWith chooser random seed c = .ok r) :
    ∃ d, c.dag.expand k.options.basis = .ok d := by
  have ⟨w, run⟩ := run_of_compileWith ok
  have ⟨w₁, first, _⟩ := Pipeline.run_cons_eq_ok rfl run
  cases expanded : c.dag.expand k.options.basis
  case ok d => exact ⟨d, rfl⟩
  case error e =>
    have target : k.options.properties.targetBasis = k.options.basis := rfl
    simp only [Pass.expansion, target, expanded] at first
    simp [Pass.allOrNothing, Except.mapError, bind, Except.bind] at first

-- The outcome depends on the seed and the effort only through the passes.
theorem compileWith_reseed
    (same : Pipeline.run ((k.reseed s effort).passes chooser' random')
      ⟨c.dag, k.options.properties⟩ =
        Pipeline.run (k.passes chooser random) ⟨c.dag, k.options.properties⟩)
    (ok : k.compileWith chooser random seed c = .ok r) :
    (k.reseed s effort).compileWith chooser' random' seed' c = .ok { r with seed := seed' } := by
  have ⟨w, x, run, verified, done, reported⟩ := compileWith_eq_ok_iff.mp ok
  exact compileWith_eq_ok_iff.mpr ⟨w, x, same.trans run, verified, done, reported ▸ rfl⟩

-- The reported swaps are those of routing.
theorem swaps_of_compileWith {d : Dag} {lay : Layout} {p : Routing.Progress σ}
    (run : Pipeline.run (k.passes chooser random) ⟨c.dag, k.options.properties⟩ =
      Pipeline.run [.direction, .cancellation, .fusion] ⟨d, k.routed lay p⟩)
    (ok : k.compileWith chooser random seed c = .ok r) : r.swaps = p.swaps := by
  have ⟨w, x, run', _, _, reported⟩ := compileWith_eq_ok_iff.mp ok
  have kept : w.properties = k.routed lay p := by
    have kept := Pipeline.properties_lowering (w := ⟨d, k.routed lay p⟩)
    rwa [← run, run'] at kept
  subst reported
  simp only [outcome, kept, routed, Store.insert, Store.get?_set_self]
  rfl

theorem run_reseed_of_no_swaps (ok : k.compileWith chooser random seed c = .ok r)
    (none : r.swaps = []) (chooser' : Chooser τ) (random' : τ) :
    Pipeline.run ((k.reseed s effort).passes chooser' random') ⟨c.dag, k.options.properties⟩ =
      Pipeline.run (k.passes chooser random) ⟨c.dag, k.options.properties⟩ := by
  cases device : k.options.couplingMap
  case none =>
    -- Without a device no pass chooses anything.
    have device' : k.options.properties.couplingMap = Option.none := device
    have start : (k.reseed s effort).options.properties = k.options.properties := rfl
    simp only [passes, Pipeline.passes, start, device', Option.isSome_none, Bool.false_eq_true, if_false]
  case some m =>
    obtain ⟨d, expanded⟩ := expand_of_compileWith ok
    obtain ⟨lay, p, chosen, routed, _⟩ := of_compileWith device expanded ok
    have run := run_passes_of_choose device expanded chooser random chosen
    rw [routed] at run
    have unswapped : p.swaps = [] := (swaps_of_compileWith run ok).symm.trans none
    have again : Routing.routeAll chooser' random' m (k.reseed s effort).options.effort lay d =
        .ok (p.withRandom random') :=
      Routing.routeAll_of_no_swaps routed unswapped chooser' random' effort
    have run' := run_passes_of_choose (k := k.reseed s effort) device expanded chooser' random' chosen
    rw [again] at run'
    exact run'.trans run.symm

theorem compile_eq_of_no_swaps (k : Compiler) {c : Circuit} {r : CompiledCircuit} {fresh : UInt64}
    (ok : k.compile fresh c = .ok r) (none : r.swaps = []) (seed : Option UInt64)
    (effort : RoutingEffort) (fresh' : UInt64) :
    (k.reseed seed effort).compile fresh' c = .ok { r with seed := seed.getD fresh' } :=
  compileWith_reseed (run_reseed_of_no_swaps ok none _ _) ok

-- The layout that is chosen puts the two ends of the chain next to each other.
theorem compile_eq_of_no_swaps_chain :
    ∃ r, chainCompiler.compile 0 chainCircuit = .ok r ∧ r.swaps = [] ∧
      r.initialLayout ≠ .trivial 3 ∧
      ∀ seed effort fresh, (chainCompiler.reseed seed effort).compile fresh chainCircuit =
        .ok { r with seed := seed.getD fresh } := by
  have outcome : (chainCompiler.compile 0 chainCircuit).toOption.map
      (fun r => (r.swaps.isEmpty, r.initialLayout == .trivial 3)) = some (true, false) := by
    decide +kernel
  cases ok : chainCompiler.compile 0 chainCircuit
  case error => simp [ok, Except.toOption] at outcome
  case ok r =>
    obtain ⟨unswapped, moved⟩ : r.swaps = [] ∧ r.initialLayout ≠ .trivial 3 := by
      simpa [ok, Except.toOption] using outcome
    exact ⟨r, rfl, unswapped, moved, fun seed effort fresh =>
      compile_eq_of_no_swaps chainCompiler ok unswapped seed effort fresh⟩

end Compiler

end CircuitRouting
