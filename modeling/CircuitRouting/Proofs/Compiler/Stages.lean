import CircuitRouting.Compiler
import CircuitRouting.Proofs.Pass.Cancellation
import CircuitRouting.Proofs.Pass.Direction
import CircuitRouting.Proofs.Pass.Fusion
import CircuitRouting.Proofs.Pass.Placement
import CircuitRouting.Proofs.Routing.Transcript

/-!
# The stages of a compilation

Expansion, cancellation, fusion and the last checks cannot fail on a circuit with a serial order. With
a device, a compilation is the choice of a layout, then routing, then the orientation of the routed
graph and what follows it; it can fail only in the first three.
-/

namespace CircuitRouting

namespace Dag

variable {basis : Basis} {d d' : Dag} {seq : List (Nat × Instruction)} {n : Nat}

theorem qubits_eq_range (h : ∀ q, d.hasWire (.qubit q) ↔ q < n) : d.qubits = List.range n := by
  refine natLt_separating.eq_of_mem_iff (natLt_separating.pairwise_sortUnique _) ?_ fun q => ?_
  case refine_1 => simpa [natLt] using List.pairwise_lt_range
  case refine_2 => rw [mem_qubits, h, List.mem_range]

theorem clbits_eq_range (h : ∀ c, d.hasWire (.clbit c) ↔ c < n) : d.clbits = List.range n := by
  refine natLt_separating.eq_of_mem_iff (natLt_separating.pairwise_sortUnique _) ?_ fun q => ?_
  case refine_1 => simpa [natLt] using List.pairwise_lt_range
  case refine_2 => rw [mem_clbits, h, List.mem_range]

-- What cancellation and fusion make of a program, with the graph between the two.
structure Polished (basis : Basis) (unfused : Dag) (seq seq' : List (Nat × Instruction)) : Prop where
  mem : ∀ i ∈ seq'.map Prod.snd, i ∈ seq.map Prod.snd ∨
    ∃ q u, ∃ g ∈ Gate.synthesize basis u, i = .gate g [q]
  simplifies : (∀ i ∈ seq.map Prod.snd, i.Plain) →
    Simplifies (unfused.Fused basis) (seq.map Prod.snd) (seq'.map Prod.snd)

theorem Serial.polish (h : d.Serial seq) (basis : Basis) :
    ∃ d₁ d' seq', d.cancelCx = (.ok (), d₁) ∧ d₁.fuseAll basis = (.ok (), d') ∧ d.Alike d' ∧
      d'.Serial seq' ∧ Polished basis d₁ seq seq' := by
  have ⟨d₁, seq₁, eq, alike, serial, subset, simplifies⟩ := h.cancelRounds (d.numOps + 1)
  have ⟨d', seq', eq', alike', serial', mem, simplifies'⟩ := serial.fuseAll basis
  refine ⟨d₁, d', seq', eq, eq', alike.trans alike', serial', fun i hi => ?_, fun plain => ?_⟩
  case refine_1 => exact (mem i hi).imp_left (subset i)
  case refine_2 =>
    exact (simplifies _ plain).trans (simplifies' fun i hi => plain i (subset i hi))

end Dag

namespace Circuit

variable {c : Circuit} {d : Dag} {qregs cregs : List Register}

-- Registers that cover the wires are accepted.
theorem exists_ofDagWithRegisters (name : String)
    (qubits : ∀ q, d.hasWire (.qubit q) ↔ q < Register.total qregs)
    (clbits : ∀ b, d.hasWire (.clbit b) ↔ b < Register.total cregs) :
    ∃ c, ofDagWithRegisters name d qregs cregs = .ok c ∧ c.dag = d := by
  rw [ofDagWithRegisters, Dag.numQubits, Dag.numClbits, Dag.qubits_eq_range qubits,
    Dag.clbits_eq_range clbits]
  simp

end Circuit

namespace Pipeline

variable {p : Pass} {ps : List Pass} {w w' : Workspace}

theorem run_cons (h : p.shouldRun w) (eq : p.run w = (.ok (), w')) : run (p :: ps) w = run ps w' := by
  simp only [run, h, if_true, eq]

theorem run_cons_error {e : CompileError} (h : p.shouldRun w) (eq : p.run w = (.error e, w')) :
    run (p :: ps) w = (.error e, w') := by
  simp only [run, h, if_true, eq]

theorem run_cons_eq_ok (h : p.shouldRun w) (eq : run (p :: ps) w = (.ok (), w')) :
    ∃ w₁, p.run w = (.ok (), w₁) ∧ run ps w₁ = (.ok (), w') := by
  cases first : p.run w
  case mk r w₁ =>
    cases r
    case ok => exact ⟨w₁, rfl, run_cons h first ▸ eq⟩
    case error e =>
      rw [run_cons_error h first] at eq
      simp at eq

end Pipeline

namespace Pass

variable {σ : Type} {chooser : Chooser σ} {random : σ} {effort : RoutingEffort} {given : Option Layout}
  {basis : Basis} {w : Workspace} {m : CouplingMap} {lay : Layout} {d : Dag}
  {seq : List (Nat × Instruction)}

theorem run_routing (device : w.properties.couplingMap = some m)
    (layout : w.properties.layout = some lay) :
    (routing chooser random effort).run w =
      match Routing.routeAll chooser random m effort lay w.dag with
      | .ok p => (.ok (), {
          dag := p.routed
          properties := { w.properties with
            layout := some p.layout
            published := w.properties.published.insert .swaps p.swaps } })
      | .error e => (.error e, w) := by
  simp only [routing, device, layout]
  cases Routing.routeAll chooser random m effort lay w.dag <;> rfl

theorem run_direction (device : w.properties.couplingMap = some m)
    (target : w.properties.basis = some basis) :
    direction.run w =
      ((Dag.orient m (.hadamard basis) w.dag.cxNodes w.dag).1,
        { w with dag := (Dag.orient m (.hadamard basis) w.dag.cxNodes w.dag).2 }) := by
  simp only [direction, device, Properties.targetBasis, target, Option.getD_some]

theorem run_polish (w : Workspace) (serial : w.dag.Serial seq) (target : w.properties.basis = some basis) :
    ∃ d₁ d' seq', Pipeline.run [cancellation] w = (.ok (), { w with dag := d₁ }) ∧
      Pipeline.run [cancellation, fusion] w = (.ok (), { w with dag := d' }) ∧
      w.dag.Alike d' ∧ d'.Serial seq' ∧ Dag.Polished basis d₁ seq seq' := by
  have ⟨d₁, d', seq', cancelled, fused, alike, serial', polished⟩ := serial.polish basis
  have first : cancellation.run w = (.ok (), { w with dag := d₁ }) := by
    simp only [cancellation, Workspace.edit, cancelled]
    rfl
  have second : fusion.run { w with dag := d₁ } = (.ok (), { w with dag := d' }) := by
    simp only [fusion, Workspace.edit, Properties.targetBasis, target, Option.getD_some, fused]
    rfl
  refine ⟨d₁, d', seq', ?_, ?_, alike, serial', polished⟩
  case refine_1 =>
    rw [Pipeline.run_cons rfl first]
    rfl
  case refine_2 =>
    rw [Pipeline.run_cons rfl first, Pipeline.run_cons rfl second]
    rfl

-- Only orientation can fail after routing.
theorem run_lowering (w : Workspace) (serial : w.dag.Serial seq) (device : w.properties.couplingMap = some m)
    (target : w.properties.basis = some basis) (level : w.dag.level = .physical)
    (coupled : ∀ x ∈ w.dag.cxNodes, m.coupled x.2.1 x.2.2) :
    ∃ d₁ d' seq₁ seq',
      Pipeline.run [direction, cancellation] w = (.ok (), { w with dag := d₁ }) ∧
      Pipeline.run [direction, cancellation, fusion] w = (.ok (), { w with dag := d' }) ∧
      w.dag.Alike d' ∧ d'.Serial seq' ∧ Dag.Polished basis d₁ seq₁ seq' ∧
      seq₁.map Prod.snd = (seq.map Prod.snd).flatMap (·.turned m (.hadamard basis)) := by
  have ⟨turned, seq₁, oriented, alike, serial₁, program⟩ :=
    serial.orient (Gate.arity_hadamard basis) coupled
  have ⟨d₁, d', seq', cancelled, polished, alike', rest⟩ :=
    run_polish { w with dag := turned } serial₁ target
  have turns : direction.shouldRun w := by simp [direction, device, level]
  have first : direction.run w = (.ok (), { w with dag := turned }) := by
    rw [run_direction device target, oriented]
  refine ⟨d₁, d', seq₁, seq', ?_, ?_, alike.trans alike', rest.1, rest.2, program⟩
  case refine_1 => rw [Pipeline.run_cons turns first, cancelled]
  case refine_2 => rw [Pipeline.run_cons turns first, polished]

end Pass

namespace Compiler

variable {k : Compiler} {σ : Type} {chooser : Chooser σ} {random : σ} {seed : UInt64} {c : Circuit}
  {m : CouplingMap} {lay : Layout} {p : Routing.Progress σ} {d : Dag} {r : CompiledCircuit}
  {seq : List (Nat × Instruction)}

-- The passes of a compilation, and what they start from.
def passes (k : Compiler) (chooser : Chooser σ) (random : σ) : List Pass :=
  Pipeline.passes chooser random k.options.effort k.options.initialLayout k.options.properties

theorem passes_of_none (none : k.options.couplingMap = none) :
    k.passes chooser random = [.expansion, .cancellation, .fusion] := by
  have none' : k.options.properties.couplingMap = Option.none := none
  simp only [passes, Pipeline.passes, none', Option.isSome_none, Bool.false_eq_true, if_false,
    List.cons_append, List.nil_append]

theorem passes_of_some (device : k.options.couplingMap = some m) :
    k.passes chooser random = [.expansion, .placement k.options.initialLayout,
      .routing chooser random k.options.effort, .direction, .cancellation, .fusion] := by
  have device' : k.options.properties.couplingMap = some m := device
  simp only [passes, Pipeline.passes, device', Option.isSome_some, if_true, List.cons_append,
    List.nil_append]

-- The graph that is handed to the last pass, which is fusion.
def unfused (k : Compiler) (chooser : Chooser σ) (random : σ) (c : Circuit) : Dag :=
  (Pipeline.run (k.passes chooser random).dropLast ⟨c.dag, k.options.properties⟩).2.dag

theorem run_of_compileWith (ok : k.compileWith chooser random seed c = .ok r) :
    ∃ w, Pipeline.run (k.passes chooser random) ⟨c.dag, k.options.properties⟩ = (.ok (), w) := by
  simp only [compileWith] at ok
  cases run : Pipeline.run (k.passes chooser random) ⟨c.dag, k.options.properties⟩
  case mk result w =>
    rw [passes] at run
    rw [run] at ok
    cases result
    case error e => contradiction
    case ok => exact ⟨w, rfl⟩

-- What is reported of a compiled program with its first and last layout.
def outcome (k : Compiler) (seed : UInt64) (c : Circuit) (w : Workspace)
    (x : Circuit × Layout × Layout) : CompiledCircuit :=
  let swaps := (w.properties.published.get? .swaps).getD []
  { circuit := x.1
    initialLayout := x.2.1
    finalLayout := x.2.2
    basis := k.options.basis
    couplingMap := k.options.couplingMap
    seed := seed
    swaps := swaps
    stats := .measure x.1 c.dag.numOps (List.length swaps) }

theorem compileWith_eq_ok_iff : k.compileWith chooser random seed c = .ok r ↔
    ∃ w x, Pipeline.run (k.passes chooser random) ⟨c.dag, k.options.properties⟩ = (.ok (), w) ∧
      w.dag.verify = .ok () ∧ k.finish c w = .ok x ∧ k.outcome seed c w x = r := by
  constructor
  case mp =>
    intro ok
    have ⟨w, run⟩ := run_of_compileWith ok
    have passed := run
    rw [passes] at passed
    simp only [compileWith, passed] at ok
    obtain ⟨_, _, ok⟩ := bind_eq_ok_iff.mp ok
    obtain ⟨_, verified, ok⟩ := bind_eq_ok_iff.mp ok
    obtain ⟨x, done, same⟩ := bind_eq_ok_iff.mp ok
    exact ⟨w, x, run, mapError_eq_ok_iff.mp verified, done, Except.ok.inj same⟩
  case mpr =>
    rintro ⟨w, x, run, verified, done, same⟩
    rw [passes] at run
    simp only [compileWith, run, verified, done]
    exact congrArg Except.ok same

-- After the passes only the registers are put back.
theorem compileWith_of_run (seed : UInt64) {w : Workspace} {compiled : Circuit}
    {first last : Layout}
    (run : Pipeline.run (k.passes chooser random) ⟨c.dag, k.options.properties⟩ = (.ok (), w))
    (serial : w.dag.Serial seq) (done : k.finish c w = .ok (compiled, first, last)) :
    ∃ r, k.compileWith chooser random seed c = .ok r ∧ r.circuit = compiled ∧
      r.initialLayout = first ∧ r.finalLayout = last ∧
      r.swaps = (w.properties.published.get? .swaps).getD [] := by
  refine ⟨k.outcome seed c w (compiled, first, last), ?_, rfl, rfl, rfl, rfl⟩
  exact compileWith_eq_ok_iff.mpr ⟨w, _, run, serial.verify, done, rfl⟩

-- The passes start with expansion.
theorem run_expanded (expanded : c.dag.expand k.options.basis = .ok d) (ps : List Pass) :
    Pipeline.run (.expansion :: ps) ⟨c.dag, k.options.properties⟩ =
      Pipeline.run ps ⟨d, k.options.properties⟩ :=
  Pipeline.run_cons rfl (Pass.run_expansion expanded)

-- Without a device the passes cannot fail, and they keep the wires.
theorem run_passes_of_none (chooser : Chooser σ) (random : σ) (none : k.options.couplingMap = none)
    (expanded : c.dag.expand k.options.basis = .ok d) (serial : d.Serial seq)
    (wires : ∀ w, d.hasWire w ↔ c.dag.hasWire w) :
    ∃ d' seq', Pipeline.run (k.passes chooser random) ⟨c.dag, k.options.properties⟩ =
        (.ok (), ⟨d', k.options.properties⟩) ∧
      (∀ w, d'.hasWire w ↔ c.dag.hasWire w) ∧ d'.Serial seq' ∧
      Dag.Polished k.options.basis (k.unfused chooser random c) seq seq' := by
  obtain ⟨d₁, d', seq', cancelled, run, alike, serial', polished⟩ :=
    Pass.run_polish ⟨d, k.options.properties⟩ serial rfl
  have unfused : k.unfused chooser random c = d₁ := by
    rw [unfused, passes_of_none none]
    exact congrArg (·.2.dag) ((run_expanded expanded _).trans cancelled)
  refine ⟨d', seq', ?_, fun w => (alike.hasWire w).trans (wires w), serial', unfused ▸ polished⟩
  rw [passes_of_none none, run_expanded expanded, run]

theorem compileWith_of_none (chooser : Chooser σ) (random : σ) (seed : UInt64) (built : c.Built)
    (none : k.options.couplingMap = none)
    (expanded : c.dag.expand k.options.basis = .ok d) (serial : d.Serial seq)
    (wires : ∀ w, d.hasWire w ↔ c.dag.hasWire w) :
    ∃ seq' r, k.compileWith chooser random seed c = .ok r ∧ r.circuit.dag.Serial seq' ∧
      Dag.Polished k.options.basis (k.unfused chooser random c) seq seq' ∧
      r.initialLayout = .trivial c.numQubits ∧
      r.finalLayout = .trivial c.numQubits ∧ r.swaps = [] := by
  obtain ⟨d', seq', run, wires', serial', polished⟩ :=
    run_passes_of_none chooser random none expanded serial wires
  have qubits : ∀ q, d'.hasWire (.qubit q) ↔ q < Register.total c.qregs := fun q =>
    (wires' _).trans (built.hasWire_qubit q)
  have clbits : ∀ b, d'.hasWire (.clbit b) ↔ b < Register.total c.cregs := fun b =>
    (wires' _).trans (built.hasWire_clbit b)
  have total : d'.numQubits = c.numQubits := by
    simp [Dag.numQubits, Dag.qubits_eq_range qubits, Circuit.numQubits]
  obtain ⟨compiled, covered, dag⟩ := Circuit.exists_ofDagWithRegisters c.name qubits clbits
  have done : k.finish c ⟨d', k.options.properties⟩ =
      .ok (compiled, .trivial c.numQubits, .trivial c.numQubits) := by
    simp only [finish, none, covered, total]
    rfl
  obtain ⟨r, eq, circuit, first, last, swaps⟩ := compileWith_of_run seed run serial' done
  exact ⟨seq', r, eq, circuit ▸ dag ▸ serial', polished, first, last, swaps⟩

section Device

variable (device : k.options.couplingMap = some m)
  (expanded : c.dag.expand k.options.basis = .ok d)
include device expanded

-- What is shared after placement and after routing.
def placed (k : Compiler) (lay : Layout) : Properties :=
  { k.options.properties with
    layout := some lay
    published := k.options.properties.published.insert .initialLayout lay }

def routed (k : Compiler) (lay : Layout) (p : Routing.Progress σ) : Properties :=
  { k.placed lay with
    layout := some p.layout
    published := (k.placed lay).published.insert .swaps p.swaps }

theorem compileWith_of_choose_error {e : CompileError}
    (chosen : Placement.choose m k.options.initialLayout d = .error e) :
    k.compileWith chooser random seed c = .error e := by
  have place : (Pass.placement k.options.initialLayout).run ⟨d, k.options.properties⟩ =
      (.error e, ⟨d, k.options.properties⟩) := by
    rw [Pass.run_placement device, chosen]
  have run : Pipeline.run (k.passes chooser random) ⟨c.dag, k.options.properties⟩ =
      (.error e, ⟨d, k.options.properties⟩) := by
    rw [passes_of_some device, run_expanded expanded, Pipeline.run_cons_error rfl place]
  rw [passes] at run
  simp only [compileWith, run]
  rfl

-- Once a layout is chosen, routing decides.
theorem run_placed (chooser : Chooser σ) (random : σ) (ps : List Pass)
    (chosen : Placement.choose m k.options.initialLayout d = .ok lay) :
    Pipeline.run (.expansion :: .placement k.options.initialLayout ::
        .routing chooser random k.options.effort :: ps) ⟨c.dag, k.options.properties⟩ =
      match Routing.routeAll chooser random m k.options.effort lay d with
      | .ok p => Pipeline.run ps ⟨p.routed, k.routed lay p⟩
      | .error e => (.error e, ⟨d, k.placed lay⟩) := by
  have place : (Pass.placement k.options.initialLayout).run ⟨d, k.options.properties⟩ =
      (.ok (), ⟨d, k.placed lay⟩) := by
    rw [Pass.run_placement device, chosen]
    rfl
  have routes : (Pass.routing chooser random k.options.effort).shouldRun ⟨d, k.placed lay⟩ := by
    have device' : (k.placed lay).couplingMap = some m := device
    simp [Pass.routing, device']
  rw [run_expanded expanded, Pipeline.run_cons rfl place]
  have route : (Pass.routing chooser random k.options.effort).run ⟨d, k.placed lay⟩ = _ :=
    Pass.run_routing device rfl
  split
  case h_1 p routed =>
    rw [routed] at route
    exact Pipeline.run_cons routes route
  case h_2 e failed =>
    rw [failed] at route
    exact Pipeline.run_cons_error routes route

theorem run_passes_of_choose (chooser : Chooser σ) (random : σ)
    (chosen : Placement.choose m k.options.initialLayout d = .ok lay) :
    Pipeline.run (k.passes chooser random) ⟨c.dag, k.options.properties⟩ =
      match Routing.routeAll chooser random m k.options.effort lay d with
      | .ok p => Pipeline.run [.direction, .cancellation, .fusion] ⟨p.routed, k.routed lay p⟩
      | .error e => (.error e, ⟨d, k.placed lay⟩) := by
  rw [passes_of_some device, run_placed device expanded chooser random _ chosen]

theorem unfused_of_routeAll (chosen : Placement.choose m k.options.initialLayout d = .ok lay)
    (routed : Routing.routeAll chooser random m k.options.effort lay d = .ok p) :
    k.unfused chooser random c =
      (Pipeline.run [.direction, .cancellation] ⟨p.routed, k.routed lay p⟩).2.dag := by
  have run := run_placed device expanded chooser random [.direction, .cancellation] chosen
  rw [routed] at run
  rw [unfused, passes_of_some device]
  exact congrArg (·.2.dag) run

theorem of_compileWith (ok : k.compileWith chooser random seed c = .ok r) :
    ∃ lay p, Placement.choose m k.options.initialLayout d = .ok lay ∧
      Routing.routeAll chooser random m k.options.effort lay d = .ok p ∧
      (p.routed.level = .physical → ∀ x ∈ p.routed.cxNodes, m.coupled x.2.1 x.2.2) := by
  obtain ⟨w, run⟩ := run_of_compileWith ok
  rw [passes_of_some device, run_expanded expanded] at run
  obtain ⟨w₁, place, run⟩ := Pipeline.run_cons_eq_ok rfl run
  rw [Pass.run_placement device] at place
  split at place
  case h_2 => simp at place
  case h_1 lay chosen =>
    cases place
    have device' : k.options.properties.couplingMap = some m := device
    obtain ⟨w₂, route, run⟩ := Pipeline.run_cons_eq_ok (by simp [Pass.routing, device']) run
    rw [Pass.run_routing device rfl] at route
    split at route
    case h_2 => simp at route
    case h_1 p routed =>
      cases route
      refine ⟨lay, p, chosen, routed, fun level => ?_⟩
      obtain ⟨w₃, turn, _⟩ := Pipeline.run_cons_eq_ok (by simp [Pass.direction, device', level]) run
      rw [Pass.run_direction device rfl, Prod.mk.injEq] at turn
      have oriented : Dag.orient m (.hadamard k.options.basis) p.routed.cxNodes p.routed =
          (.ok (), w₃.dag) := Prod.ext turn.1 (congrArg Workspace.dag turn.2)
      exact Dag.coupled_of_orient oriented

theorem compileWith_of_coupled (seed : UInt64)
    (chosen : Placement.choose m k.options.initialLayout d = .ok lay)
    (routed : Routing.routeAll chooser random m k.options.effort lay d = .ok p)
    (serial : p.routed.Serial seq) (level : p.routed.level = .physical)
    (qubits : ∀ q, p.routed.hasWire (.qubit q) ↔ q < m.numQubits)
    (clbits : ∀ b, p.routed.hasWire (.clbit b) ↔ b < c.numClbits)
    (coupled : ∀ x ∈ p.routed.cxNodes, m.coupled x.2.1 x.2.2) :
    ∃ seq₁ seq' r, k.compileWith chooser random seed c = .ok r ∧ r.circuit.dag.Serial seq' ∧
      p.routed.Alike r.circuit.dag ∧
      Dag.Polished k.options.basis (k.unfused chooser random c) seq₁ seq' ∧
      seq₁.map Prod.snd = (seq.map Prod.snd).flatMap (·.turned m (.hadamard k.options.basis)) ∧
      r.initialLayout = lay ∧ r.finalLayout = p.layout ∧ r.swaps = p.swaps := by
  obtain ⟨d₁, d', seq₁, seq', cancelled, run, alike, serial', polished, turned⟩ :=
    Pass.run_lowering ⟨p.routed, k.routed lay p⟩ serial device rfl level coupled
  have unfused : k.unfused chooser random c = d₁ :=
    (unfused_of_routeAll device expanded chosen routed).trans (congrArg (·.2.dag) cancelled)
  have whole := run_passes_of_choose device expanded chooser random chosen
  rw [routed] at whole
  have whole := whole.trans run
  have quantum : ∀ q, d'.hasWire (.qubit q) ↔ q < Register.total [⟨"q", m.numQubits⟩] := by
    intro q
    rw [alike.hasWire, qubits]
    simp [Register.total]
  have classical : ∀ b, d'.hasWire (.clbit b) ↔ b < Register.total c.cregs := fun b =>
    (alike.hasWire _).trans (clbits b)
  obtain ⟨compiled, covered, dag⟩ := Circuit.exists_ofDagWithRegisters c.name quantum classical
  have done : k.finish c ⟨d', k.routed lay p⟩ = .ok (compiled, lay, p.layout) := by
    have first : (k.routed lay p).published.get? .initialLayout = some lay := by
      simp only [Compiler.routed, placed, Store.insert]
      rw [Store.get?_set_ne _ _ (by decide), Store.get?_set_self]
      rfl
    have last : (k.routed lay p).layout = some p.layout := rfl
    simp only [finish, device, first, last, covered]
    rfl
  obtain ⟨r, eq, circuit, first, last, swaps⟩ := compileWith_of_run seed whole serial' done
  refine ⟨seq₁, seq', r, eq, ?_, ?_, unfused ▸ polished, turned, first, last, ?_⟩
  case refine_1 => exact circuit ▸ dag ▸ serial'
  case refine_2 => exact circuit ▸ dag ▸ alike
  case refine_3 =>
    rw [swaps]
    simp only [Compiler.routed, Store.insert, Store.get?_set_self]
    rfl

end Device

-- What a compilation for a device goes through: the expanded program, what routing emits of it, the
-- orientation of that, the graph that is left to fuse, and the compiled program.
structure Stages (k : Compiler) (m : CouplingMap) (c : Circuit) (r : CompiledCircuit) (d : Dag)
    (groups : List (List Routing.Group)) (out : List Instruction) (unfused : Dag)
    (seq : List (Nat × Instruction)) : Prop where
  expanded : d.instructions = c.dag.instructions.flatMap (·.expand k.options.basis)
  serial : ∃ seq, d.Serial seq
  wires : ∀ w, d.hasWire w ↔ c.dag.hasWire w
  chosen : Placement.choose m k.options.initialLayout d = .ok r.initialLayout
  layers : List.Forall₂ (fun gs layer => gs.flatMap Routing.Group.nodes = layer) groups d.layers
  emits : Routing.Emits d r.initialLayout groups.flatten out r.finalLayout
  swaps : r.swaps = Routing.allRecords groups 0
  proper : ∀ i ∈ out, i.Proper
  coupled : ∀ i ∈ out, i.isCx → m.coupled i.control i.target
  polished : ∃ seq', seq'.map Prod.snd = out.flatMap (·.turned m (.hadamard k.options.basis)) ∧
    Dag.Polished k.options.basis unfused seq' seq
  compiled : r.circuit.dag.Serial seq
  qubits : ∀ q, r.circuit.dag.hasWire (.qubit q) ↔ q < m.numQubits

theorem exists_expanded (built : c.Built)
    (once : ∀ n i, c.dag.instruction? n = some i → i.clbits.Nodup) (basis : Basis) :
    ∃ d, c.dag.expand basis = .ok d ∧
      d.instructions = c.dag.instructions.flatMap (·.expand basis) ∧ (∃ seq, d.Serial seq) ∧
      ∀ w, d.hasWire w ↔ c.dag.hasWire w := by
  have ⟨seq, serial⟩ := built.serial once
  have ⟨d, new, expanded, written, snd, wires, _⟩ := serial.expand basis
  exact ⟨d, expanded, written.instructions_eq.trans snd, ⟨new, written.serial⟩, wires⟩

-- The routed graph has the qubits of the device and the classical bits of the circuit.
theorem exists_routed (built : c.Built) (wires : ∀ w, d.hasWire w ↔ c.dag.hasWire w)
    (serial : d.Serial seq) {effort : RoutingEffort}
    (routed : Routing.routeAll chooser random m effort lay d = .ok p) :
    ∃ groups out new, Routing.Transcript m lay d groups out p ∧ new.map Prod.snd = out ∧
      p.routed.Serial new ∧ p.routed.level = .physical ∧
      (∀ q, p.routed.hasWire (.qubit q) ↔ q < m.numQubits) ∧
      ∀ b, p.routed.hasWire (.clbit b) ↔ b < c.numClbits := by
  have ⟨_, groups, out, t⟩ := Routing.of_routeAll routed
  have ⟨alike, new, snd, written⟩ := t.written fun n i hi =>
    (serial.fits (n, i) ((serial.mem_iff n i).mpr hi)).once
  refine ⟨groups, out, new, t, snd, written.serial, alike.level.trans Dag.level_ofWires,
    fun q => ?_, fun b => ?_⟩
  case refine_1 =>
    rw [alike.hasWire, Dag.hasWire_ofWires]
    simp
  case refine_2 =>
    rw [alike.hasWire, Dag.hasWire_ofWires, ← built.hasWire_clbit, ← wires, ← Dag.mem_clbits]
    simp

theorem exists_stages (built : c.Built)
    (once : ∀ n i, c.dag.instruction? n = some i → i.clbits.Nodup)
    (device : k.options.couplingMap = some m) (ok : k.compileWith chooser random seed c = .ok r) :
    ∃ d groups out seq, k.Stages m c r d groups out (k.unfused chooser random c) seq := by
  have ⟨d, expanded, program, ⟨seq, serial⟩, wires⟩ := exists_expanded built once k.options.basis
  have ⟨lay, p, chosen, routed, coupled⟩ := of_compileWith device expanded ok
  have ⟨groups, out, new, t, snd, serial', level, qubits, clbits⟩ :=
    exists_routed built wires serial routed
  have coupled := coupled level
  have ⟨seq₁, seq', r', eq, compiled, alike, polished, turned, first, last, swaps⟩ :=
    compileWith_of_coupled device expanded seed chosen routed serial' level qubits clbits coupled
  cases ok.symm.trans eq
  subst first
  refine ⟨d, groups, out, seq', program, ⟨seq, serial⟩, wires, chosen, t.cover, last ▸ t.emits,
    swaps.trans t.swaps, fun i hi => ?_, fun i hi cx => ?_, ⟨seq₁, snd ▸ turned, polished⟩, compiled,
    fun q => (alike.hasWire _).trans (qubits q)⟩
  case refine_1 =>
    subst snd
    have ⟨x, hx, eq⟩ := List.mem_map.mp hi
    exact eq ▸ (serial'.fits x hx).proper
  case refine_2 =>
    subst snd
    have ⟨x, hx, eq⟩ := List.mem_map.mp hi
    exact coupled (x.1, i.control, i.target)
      (Dag.mem_cxNodes.mpr ⟨i, eq ▸ (serial'.mem_iff x.1 x.2).mp hx, cx, rfl, rfl⟩)

-- A controlled NOT on the two ends of a chain that runs both ways, and a measurement after it.
def chainCircuit : Circuit :=
  let c := Circuit.ofSize "chain" 3 1
  let c := { c with dag := (c.dag.append (.cx 0 2)).2 }
  { c with dag := (c.dag.append (.measure 2 0)).2 }

theorem chainCircuit_built : chainCircuit.Built :=
  .append _ (.append _ (Circuit.built_ofSize "chain" 3 1))

def chainCompiler : Compiler where
  options := { couplingMap := some (CouplingMap.linear 3).symmetric }
  valid := by decide +kernel

theorem compileWith_of_isOk {σ : Type} (chooser : Chooser σ) (random : σ) (seed : UInt64)
    (k : Compiler) (c : Circuit) (h : (k.compileWith chooser random seed c).isOk) :
    ∃ r, k.compileWith chooser random seed c = .ok r := by
  cases eq : k.compileWith chooser random seed c
  case error => simp [eq, Except.isOk, Except.toBool] at h
  case ok r => exact ⟨r, rfl⟩

end Compiler

end CircuitRouting
