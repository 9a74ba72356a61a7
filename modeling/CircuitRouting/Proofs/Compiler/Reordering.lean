import CircuitRouting.Proofs.Compiler.Meaning
import CircuitRouting.Proofs.Dag.Sound
import CircuitRouting.Proofs.Routing.Congruence
import CircuitRouting.Proofs.Schedule

/-!
# The order in which operations are listed

A circuit may list operations that share no wire in any order. With a device and a fixed seed the
outcome of a compilation is the same for all these orders: the expanded programs have the same
layers, and after the layers nothing is left of the order.
-/

namespace CircuitRouting

namespace Instruction

variable {d : Dag} {i j : Instruction} {basis : Basis} {w : Wire}

theorem Plain.nodup_clbits (h : i.Plain) (fits : d.Fits i) : i.clbits.Nodup := by
  cases h
  case inl measure =>
    have ⟨b, eq⟩ := List.length_eq_one_iff.mp (fits.measure measure)
    simp [eq]
  case inr none => simp [none]

-- What an instruction becomes stays on its wires.
theorem mem_wires_of_expand (fits : d.FitsOnce i) (hj : j ∈ i.expand basis) (hw : w ∈ j.wires) :
    w ∈ i.wires := by
  have own : ∀ w, (Dag.ofWires i.qubits i.clbits .logical).hasWire w ↔ w ∈ i.wires := fun w =>
    Dag.hasWire_ofWires.trans (by simp [wires])
  have fits' : (Dag.ofWires i.qubits i.clbits .logical).FitsOnce i :=
    ⟨⟨fits.arity, fits.measure, fun q hq => (own _).mpr (by simp [wires, hq]),
      fun b hb => (own _).mpr (by simp [wires, hb]), fits.nodup⟩, fits.once⟩
  exact (own w).mp ((Dag.fitsOnce_expand fits' hj).hasWire hw)

end Instruction

namespace Circuit

-- A circuit with the instructions that were applied to build it, in the order of the calls.
inductive Lists : Circuit → List Instruction → Prop
  | named (name : String) : Lists (.named name) []
  | rename {c : Circuit} {is : List Instruction} (name : String) :
    Lists c is → Lists { c with name } is
  | addQreg {c c' : Circuit} {is : List Instruction} {name : String} {size : Nat} {ids : List Nat} :
    Lists c is → c.addQreg name size = .ok (ids, c') → Lists c' is
  | addCreg {c c' : Circuit} {is : List Instruction} {name : String} {size : Nat} {ids : List Nat} :
    Lists c is → c.addCreg name size = .ok (ids, c') → Lists c' is
  | apply {c c' : Circuit} {is : List Instruction} {i : Instruction} {n : Nat} :
    Lists c is → c.apply i = .ok (n, c') → Lists c' (is ++ [i])

namespace Lists

variable {c c' : Circuit} {is js : List Instruction}

theorem built (h : c.Lists is) : c.Built := by
  induction h
  case named name => exact .named name
  case rename name _ hi => exact hi.rename name
  case addQreg eq hi => exact hi.addQreg eq
  case addCreg eq hi => exact hi.addCreg eq
  case apply eq hi => exact hi.apply eq

theorem applyAll (h : c.Lists is) (eq : c.applyAll js = .ok c') : c'.Lists (is ++ js) := by
  have ⟨d, applied, same⟩ := map_eq_ok_iff.mp eq
  subst same
  clear eq
  induction js generalizing c is
  case nil =>
    cases applied
    simpa using h
  case cons i js hi =>
    have ⟨n, d₁, first, rest⟩ := Dag.of_applyAll_cons applied
    have here : c.apply i = .ok (n, { c with dag := d₁ }) := by rw [Circuit.apply, first]; rfl
    simpa using hi (h.apply here) rest

-- The instructions in the order of the calls are a serial order.
theorem serial (h : c.Lists is) (plain : ∀ i ∈ is, i.Plain) :
    ∃ seq, c.dag.Serial seq ∧ seq.map Prod.snd = is := by
  induction h
  case named => exact ⟨[], .empty .logical, rfl⟩
  case rename hi => exact hi plain
  case addQreg eq hi =>
    have ⟨seq, serial, snd⟩ := hi plain
    exact ⟨seq, Built.of_addQreg eq ▸ serial.foldl_addWire .qubit _, snd⟩
  case addCreg eq hi =>
    have ⟨seq, serial, snd⟩ := hi plain
    exact ⟨seq, Built.of_addCreg eq ▸ serial.foldl_addWire .clbit _, snd⟩
  case apply i n _ eq hi =>
    have ⟨seq, serial, snd⟩ := hi fun j hj => plain j (by simp [hj])
    have ⟨⟨m, d⟩, applied, same⟩ := map_eq_ok_iff.mp eq
    cases same
    have appended := Dag.append_of_apply applied
    have once := (plain i (by simp)).nodup_clbits (Dag.fits_of_append appended)
    exact ⟨seq ++ [(n, i)], (serial.of_append once appended).2.2, by simp [snd]⟩

end Lists

end Circuit

namespace Compiler

variable {k : Compiler} {σ : Type} {chooser : Chooser σ} {random : σ} {seed : UInt64}
  {c c' : Circuit} {is is' : List Instruction} {m : CouplingMap} {d d' : Dag}

-- What follows the layers depends on the circuit only by its name, its registers and its size.
theorem compileWith_congr (device : k.options.couplingMap = some m)
    (expanded : c.dag.expand k.options.basis = .ok d)
    (expanded' : c'.dag.expand k.options.basis = .ok d') (same : d.SameLayers d')
    (name : c.name = c'.name) (cregs : c.cregs = c'.cregs) (size : c.dag.numOps = c'.dag.numOps) :
    k.compileWith chooser random seed c = k.compileWith chooser random seed c' := by
  have chosen' := Placement.choose_congr same m k.options.initialLayout
  cases chosen : Placement.choose m k.options.initialLayout d
  case error e =>
    rw [compileWith_of_choose_error device expanded chosen,
      compileWith_of_choose_error device expanded' (chosen' ▸ chosen)]
  case ok lay =>
    have run := run_passes_of_choose device expanded chooser random chosen
    have run' := run_passes_of_choose device expanded' chooser random (chosen' ▸ chosen)
    rw [Routing.routeAll_congr same] at run
    have finish : k.finish c = k.finish c' := by
      funext w
      simp only [Compiler.finish, device, name, cregs]
    simp only [passes] at run run'
    simp only [compileWith, run, run', finish, size]
    cases Routing.routeAll chooser random m k.options.effort lay d'
    case error => rfl
    case ok => rfl

-- A circuit expands to the expansion of any order of its program, up to the order.
theorem exists_reordered (listed : c.Lists is) (plain : ∀ i ∈ is, i.Plain) (order : Reorders is is')
    (basis : Basis) :
    ∃ d seq, c.dag.expand basis = .ok d ∧ d.Serial seq ∧
      Reorders d.instructions (is'.flatMap (·.expand basis)) ∧ d.qubits = List.range c.numQubits ∧
      d.clbits = List.range c.numClbits ∧ c.dag.numOps = is.length := by
  have ⟨seq, serial, snd⟩ := listed.serial plain
  have ⟨d, new, expanded, written, program, wires, _⟩ := serial.expand basis
  have built := listed.built
  refine ⟨d, new, expanded, written.serial, ?_, ?_, ?_, by simp [serial.numOps_eq, ← snd]⟩
  case refine_1 =>
    have order' := serial.reorders_instructions.trans (snd ▸ order)
    rw [written.instructions_eq, program]
    refine order'.flatMap fun i hi j hj w hw => ?_
    have ⟨x, hx, eq⟩ := List.mem_map.mp hi
    exact Instruction.mem_wires_of_expand (eq ▸ serial.topologicalOps.fits x hx) hj hw
  case refine_2 => exact Dag.qubits_eq_range fun q => (wires _).trans (built.hasWire_qubit q)
  case refine_3 => exact Dag.clbits_eq_range fun b => (wires _).trans (built.hasWire_clbit b)

-- Both orders of a program expand to the same layers, if the place that the layers keep for
-- instructions without qubits is no qubit of the circuit.
theorem exists_sameLayers (listed : c.Lists is) (listed' : c'.Lists is')
    (qregs : c.qregs = c'.qregs) (cregs : c.cregs = c'.cregs) (order : Reorders is is')
    (plain : ∀ i ∈ is, i.Plain) (basis : Basis) :
    ∃ d d', c.dag.expand basis = .ok d ∧ c'.dag.expand basis = .ok d' ∧
      d.numQubits = c.numQubits ∧ d'.numQubits = c.numQubits ∧ c.dag.numOps = c'.dag.numOps ∧
      (c.numQubits < UInt32.size → d.SameLayers d') := by
  have plain' : ∀ i ∈ is', i.Plain := fun i hi => plain i (order.perm.mem_iff.mpr hi)
  obtain ⟨d, seq, expanded, serial, program, qubits, clbits, ops⟩ :=
    exists_reordered listed plain (.refl is) basis
  obtain ⟨d', seq', expanded', serial', program', qubits', clbits', ops'⟩ :=
    exists_reordered listed' plain' order.symm basis
  have quantum : c.numQubits = c'.numQubits := congrArg Register.total qregs
  have classical : c.numClbits = c'.numClbits := congrArg Register.total cregs
  refine ⟨d, d', expanded, expanded', by simp [Dag.numQubits, qubits],
    by simp [Dag.numQubits, qubits', quantum], by rw [ops, ops', order.perm.length_eq],
    fun small => ⟨by rw [qubits, qubits', quantum], by rw [clbits, clbits', classical], ?_⟩⟩
  have plain₁ : ∀ n i, d.instruction? n = some i → i.Plain := by
    intro n i found
    have mem := program.perm.mem_iff.mp (serial.mem_instructions.mpr ⟨n, found⟩)
    obtain ⟨j, hj, hi⟩ := List.mem_flatMap.mp mem
    exact (plain j hj).expand hi
  have numbered : ∀ q, d.hasWire (.qubit q) → q < UInt32.size - 1 := by
    intro q hq
    rw [← Dag.mem_qubits, qubits, List.mem_range] at hq
    omega
  exact serial.map_layers_eq plain₁ numbered serial' (program.trans program'.symm)

-- The qubits of a device are numbered by 32-bit numbers.
theorem compile_eq_of_reorders (k : Compiler) {c c' : Circuit} {is is' : List Instruction}
    {m : CouplingMap} {seed : UInt64} (listed : c.Lists is) (listed' : c'.Lists is')
    (name : c.name = c'.name) (qregs : c.qregs = c'.qregs) (cregs : c.cregs = c'.cregs)
    (order : Reorders is is') (plain : ∀ i ∈ is, i.Plain) (device : k.options.couplingMap = some m)
    (small : m.numQubits < UInt32.size) (seeded : k.options.seed = some seed)
    (fresh fresh' : UInt64) : k.compile fresh c = k.compile fresh' c' := by
  have ⟨d, d', expanded, expanded', qubits, qubits', ops, same⟩ :=
    exists_sameLayers listed listed' qregs cregs order plain k.options.basis
  simp only [compile, seeded, Option.getD_some]
  by_cases large : m.numQubits < c.numQubits
  case pos =>
    -- The circuit is refused before its layers are looked at.
    have refused := Placement.choose_eq m k.options.initialLayout d
    have refused' := Placement.choose_eq m k.options.initialLayout d'
    rw [qubits, if_pos large] at refused
    rw [qubits', if_pos large] at refused'
    rw [compileWith_of_choose_error device expanded refused,
      compileWith_of_choose_error device expanded' refused']
  case neg =>
    exact compileWith_congr device expanded expanded' (same (by omega)) name cregs ops

def seededCompiler : Compiler where
  options := { couplingMap := some (CouplingMap.linear 3).symmetric, seed := some 7 }
  valid := by decide +kernel

-- Three qubits and a classical bit.
def blank : Circuit :=
  (((Circuit.named "triangle").pushQreg ⟨"q", 3⟩).2.pushCreg ⟨"c", 1⟩).2

theorem lists_blank : blank.Lists [] :=
  .addCreg (.addQreg (.named "triangle") rfl) rfl

-- Two gates that close a triangle with one on the qubits 0 and 1, so that a chain needs a swap.
def closing : List Instruction :=
  [.cx 1 2, .cx 0 2]

theorem compile_eq_of_reorders_triangle :
    ∃ c c', blank.applyAll (.cx 0 1 :: .measure 2 0 :: closing) = .ok c ∧
      blank.applyAll (.measure 2 0 :: .cx 0 1 :: closing) = .ok c' ∧
      (∃ r, seededCompiler.compile 0 c = .ok r ∧ r.swaps ≠ []) ∧
      ∀ fresh fresh', seededCompiler.compile fresh c = seededCompiler.compile fresh' c' := by
  have swapped : ((blank.applyAll (.cx 0 1 :: .measure 2 0 :: closing)).toOption.bind fun c =>
      (seededCompiler.compile 0 c).toOption.map fun r => r.swaps.isEmpty) = some false := by
    decide +kernel
  have accepted : (blank.applyAll (.measure 2 0 :: .cx 0 1 :: closing)).isOk := by decide +kernel
  have apart : (Instruction.cx 0 1).Apart (.measure 2 0) := by
    unfold Instruction.Apart
    decide
  have plain : ∀ i ∈ Instruction.cx 0 1 :: .measure 2 0 :: closing, i.Plain := by
    unfold Instruction.Plain
    decide
  cases first : blank.applyAll (.cx 0 1 :: .measure 2 0 :: closing)
  case error => simp [first, Except.toOption] at swapped
  case ok c =>
    cases second : blank.applyAll (.measure 2 0 :: .cx 0 1 :: closing)
    case error => simp [second, Except.isOk, Except.toBool] at accepted
    case ok c' =>
      refine ⟨c, c', rfl, rfl, ?_, fun fresh fresh' => ?_⟩
      case refine_1 =>
        rw [first] at swapped
        cases ran : seededCompiler.compile 0 c
        case error => simp [ran, Except.toOption] at swapped
        case ok r => exact ⟨r, rfl, by simpa [ran, Except.toOption] using swapped⟩
      case refine_2 =>
        obtain ⟨d, _, same⟩ := map_eq_ok_iff.mp first
        obtain ⟨d', _, same'⟩ := map_eq_ok_iff.mp second
        exact compile_eq_of_reorders seededCompiler (lists_blank.applyAll first)
          (lists_blank.applyAll second) (by rw [← same, ← same']) (by rw [← same, ← same'])
          (by rw [← same, ← same']) (.swap [] closing apart) plain rfl (by decide) rfl fresh fresh'

end Compiler

end CircuitRouting
