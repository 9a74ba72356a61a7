import CircuitRouting.Proofs.Compiler.Stages
import CircuitRouting.Proofs.Qasm.Statement
import Mathlib.Data.List.DropRight

/-!
# The registers that a compiled program declares

A program for a device declares one quantum register, which is always called `q`, and the classical
registers of the circuit. So a name is declared twice exactly if a classical register is called `q` as
well, and neither of the two is empty.
-/

namespace CircuitRouting

namespace Qasm

-- The name in a declaration stands between the keyword and the last bracket.
def declaredName (line : String) : String :=
  String.ofList ((line.toList.drop 5).rdropWhile (· ≠ '[')).dropLast

-- The names that the declarations of a program give.
def declaredNames (ls : List String) : List String :=
  (ls.filter (keyword · = "qreg") ++ ls.filter (keyword · = "creg")).map declaredName

theorem declaredName_declaration {word : String} (r : Register) (four : word.toList.length = 4) :
    declaredName (declaration word r) = r.name := by
  have size : MadeOf (· ≠ '[') (toString r.size ++ "];") :=
    ((MadeOf.decimal r.size).avoids (by decide)).append (by decide)
  have rest : (declaration word r).toList.drop 5 =
      r.name.toList ++ '[' :: (toString r.size ++ "];").toList := by
    have none : word.toList.drop 5 = [] := List.drop_eq_nil_of_le (by omega)
    rw [toList_declaration, List.drop_append, none, four]
    simp
  rw [declaredName, rest, List.rdropWhile, List.reverse_append, List.reverse_cons, List.append_assoc,
    List.dropWhile_append_of_pos fun ch hch => size ch (List.mem_reverse.mp hch)]
  simp

theorem declaredNames_of_program {c : Circuit} {ls : List String} (h : program c = .ok ls) :
    declaredNames ls = (c.qregs ++ c.cregs).map Register.name := by
  have ⟨quantum, classical⟩ := filter_keyword h
  have names : ∀ {word : String} (rs : List Register), word.toList.length = 4 →
      (rs.map (declaration word)).map declaredName = rs.map Register.name := by
    intro word rs four
    rw [List.map_map]
    exact List.map_congr_left fun r _ => declaredName_declaration r four
  rw [declaredNames, quantum, classical, List.map_append, names _ (by decide), names _ (by decide),
    List.map_append]

end Qasm

namespace Compiler

variable {k : Compiler} {σ : Type} {chooser : Chooser σ} {random : σ} {seed : UInt64} {c : Circuit}
  {r : CompiledCircuit}

-- The quantum registers of a compiled program: those of the circuit, or all qubits of the device.
def quantumRegisters (k : Compiler) (c : Circuit) : List Register :=
  match k.options.couplingMap with
  | some m => [⟨"q", m.numQubits⟩]
  | none => c.qregs

theorem of_finish {w : Workspace} {compiled : Circuit} {first last : Layout}
    (h : k.finish c w = .ok (compiled, first, last)) :
    compiled.dag = w.dag ∧ compiled.qregs = (k.quantumRegisters c).filter (0 < ·.size) ∧
      compiled.cregs = c.cregs.filter (0 < ·.size) := by
  cases device : k.options.couplingMap
  case none =>
    simp only [finish, device] at h
    obtain ⟨circuit, covered, same⟩ := bind_eq_ok_iff.mp h
    cases same
    simpa [quantumRegisters, device] using Circuit.of_ofDagWithRegisters (mapError_eq_ok_iff.mp covered)
  case some m =>
    simp only [finish, device] at h
    split at h
    case h_1 =>
      obtain ⟨circuit, covered, same⟩ := bind_eq_ok_iff.mp h
      cases same
      simpa [quantumRegisters, device] using Circuit.of_ofDagWithRegisters (mapError_eq_ok_iff.mp covered)
    case h_2 => contradiction

theorem registers_of_compileWith (ok : k.compileWith chooser random seed c = .ok r) :
    r.circuit.qregs = (k.quantumRegisters c).filter (0 < ·.size) ∧
      r.circuit.cregs = c.cregs.filter (0 < ·.size) := by
  have ⟨_, ⟨compiled, first, last⟩, _, _, done, same⟩ := compileWith_eq_ok_iff.mp ok
  cases same
  exact (of_finish done).2

theorem declaredNames_nodup_iff {ls : List String}
    (distinct : ((c.qregs ++ c.cregs).map Register.name).Nodup)
    (ok : k.compileWith chooser random seed c = .ok r) (emitted : Qasm.program r.circuit = .ok ls) :
    (Qasm.declaredNames ls).Nodup ↔ ∀ m, k.options.couplingMap = some m → 0 < m.numQubits →
      ∀ b ∈ c.cregs, 0 < b.size → b.name ≠ "q" := by
  have ⟨quantum, classical⟩ := registers_of_compileWith ok
  rw [Qasm.declaredNames_of_program emitted, quantum, classical]
  cases device : k.options.couplingMap
  case none =>
    -- The registers stay as they are, except that empty ones are dropped.
    simp only [quantumRegisters, device, reduceCtorEq, false_implies, implies_true, iff_true]
    rw [← List.filter_append]
    exact distinct.sublist (List.filter_sublist.map _)
  case some m =>
    have ⟨_, cregs, _⟩ := List.nodup_append.mp (List.map_append ▸ distinct)
    have kept : ((c.cregs.filter (0 < ·.size)).map Register.name).Nodup :=
      cregs.sublist (List.filter_sublist.map _)
    by_cases empty : m.numQubits = 0
    case pos => simpa [quantumRegisters, device, empty] using kept
    case neg =>
      have some : 0 < m.numQubits := Nat.pos_of_ne_zero empty
      simp [quantumRegisters, device, some, kept]

theorem declaredNames_nodup_iff_chain :
    ∃ r ls, chainCompiler.compileWith Chooser.first () 0 chainCircuit = .ok r ∧
      Qasm.program r.circuit = .ok ls ∧ (Qasm.declaredNames ls).Nodup := by
  have run : ((chainCompiler.compileWith Chooser.first () 0 chainCircuit).toOption.bind fun r =>
      (Qasm.program r.circuit).toOption).isSome := by
    decide +kernel
  have ⟨ls, run⟩ := Option.isSome_iff_exists.mp run
  have ⟨r, compiled, emitted⟩ := Option.bind_eq_some_iff.mp run
  rw [toOption_eq_some_iff] at compiled emitted
  have once := (declaredNames_nodup_iff (by decide +kernel) compiled emitted).mpr fun m _ _ => by
    decide +kernel
  exact ⟨r, ls, compiled, emitted, once⟩

-- A measurement into a register that is called like the qubits of a device.
def namesake : Circuit :=
  let c := ((Circuit.named "namesake").pushQreg ⟨"a", 1⟩).2
  let c := (c.pushCreg ⟨"q", 1⟩).2
  { c with dag := (c.dag.append (.measure 0 0)).2 }

theorem namesake_built : namesake.Built :=
  .append _ (.addCreg (.addQreg (.named _) rfl) rfl)

def singleQubit : Compiler where
  options := { couplingMap := some (CouplingMap.linear 1) }
  valid := by decide +kernel

theorem compile_declares_twice : namesake.Built ∧
    ((namesake.qregs ++ namesake.cregs).map Register.name).Nodup ∧
    ∃ r ls, singleQubit.compile 0 namesake = .ok r ∧ Qasm.program r.circuit = .ok ls ∧
      ¬(Qasm.declaredNames ls).Nodup := by
  have run : ((singleQubit.compile 0 namesake).toOption.bind fun r =>
      (Qasm.program r.circuit).toOption.map Qasm.declaredNames) = some ["q", "q"] := by
    decide +kernel
  have ⟨r, compiled, run⟩ := Option.bind_eq_some_iff.mp run
  have ⟨ls, emitted, names⟩ := Option.map_eq_some_iff.mp run
  rw [toOption_eq_some_iff] at compiled emitted
  exact ⟨namesake_built, by decide +kernel, r, ls, compiled, emitted, names ▸ by decide⟩

end Compiler

end CircuitRouting
