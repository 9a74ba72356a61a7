import CircuitRouting.Proofs.Qasm.Statement
import CircuitRouting.Proofs.Simplification

/-!
# The text of a program determines it

Registers with plain names and the operations on them can be read off the text of a program. Only the
angles of gates are known up to the way they are written.
-/

namespace CircuitRouting

-- Letters, digits and underscores.
def isNameChar (ch : Char) : Bool :=
  ch.isAlphanum || ch == '_'

def Register.HasPlainName (r : Register) : Prop :=
  r.name ≠ "" ∧ MadeOf isNameChar r.name

instance : DecidablePred Register.HasPlainName :=
  fun _ => inferInstanceAs (Decidable (_ ∧ _))

def Circuit.HasPlainNames (c : Circuit) : Prop :=
  (∀ r ∈ c.qregs, r.HasPlainName) ∧ ∀ r ∈ c.cregs, r.HasPlainName

namespace Action

-- Actions that are written the same way.
inductive Agrees : Action → Action → Prop
  | gate {g g' : Gate} :
    g.name = g'.name → g.params.map Angle.text = g'.params.map Angle.text → Agrees (.gate g) (.gate g')
  | measure : Agrees .measure .measure
  | barrier : Agrees .barrier .barrier

theorem Agrees.measure_iff {a a' : Action} (h : a.Agrees a') : a = .measure ↔ a' = .measure := by
  cases h <;> simp

end Action

structure Instruction.Agrees (i j : Instruction) : Prop where
  action : i.action.Agrees j.action
  qubits : i.qubits = j.qubits
  clbits : i.clbits = j.clbits

theorem Gate.paramCount?_name (g : Gate) : paramCount? g.name = some g.params.length := by
  cases g <;> rfl

namespace BitRef

variable {b b' : BitRef}

abbrev HasPlainName (b : BitRef) : Prop :=
  MadeOf isNameChar b.register

theorem toList_text (b : BitRef) :
    b.text.toList = b.register.toList ++ '[' :: ((toString b.index).toList ++ [']']) := by
  simp [text]

theorem text_inj (plain : b.HasPlainName) (plain' : b'.HasPlainName) (eq : b.text = b'.text) :
    b = b' := by
  replace eq := congrArg String.toList eq
  rw [toList_text, toList_text] at eq
  have ⟨register, _, rest⟩ := append_cons_inj plain plain' (by decide) (by decide) eq
  have index := toString_inj (List.append_cancel_right rest)
  cases b
  cases b'
  cases String.toList_inj.mp register
  cases index
  rfl

end BitRef

namespace Qasm

-- The characters of positions and of lists of them.
def isRefChar (ch : Char) : Bool :=
  isNameChar ch || ch == '[' || ch == ']'

theorem madeOf_text {b : BitRef} (plain : b.HasPlainName) : MadeOf isRefChar b.text := by
  have name := plain.imp (q := isRefChar) fun ch h => by simp [isRefChar, h]
  have index := (MadeOf.decimal b.index).imp (q := isRefChar) fun ch h => by
    simp [isRefChar, isNameChar, Char.isAlphanum, h]
  exact ((name.append (by decide)).append index).append (by decide)

variable {qs qs' bs bs' : List BitRef}

theorem madeOf_refs (plain : ∀ b ∈ bs, b.HasPlainName) :
    MadeOf (fun ch => isRefChar ch || ch == ',') (refs bs) := by
  refine .intercalate (by decide) (List.forall_mem_map.mpr fun b hb => ?_)
  exact (madeOf_text (plain b hb)).imp fun ch h => by simp [h]

theorem refs_ne_empty (some : bs ≠ []) : refs bs ≠ "" := by
  have ⟨b, rest, eq⟩ := List.exists_cons_of_ne_nil some
  intro empty
  replace empty := congrArg String.toList empty
  rw [eq, refs, List.map_cons] at empty
  cases rest
  case nil => simp [BitRef.toList_text] at empty
  case cons => simp [BitRef.toList_text] at empty

theorem refs_inj (plain : ∀ b ∈ bs, b.HasPlainName) (plain' : ∀ b ∈ bs', b.HasPlainName)
    (eq : refs bs = refs bs') : bs = bs' := by
  have listed : ∀ {bs : List BitRef}, (∀ b ∈ bs, b.HasPlainName) →
      ∀ l ∈ bs.map BitRef.text, MadeOf (· ≠ ',') l := fun plain =>
    List.forall_mem_map.mpr fun b hb => (madeOf_text (plain b hb)).avoids (by decide)
  by_cases none : bs = []
  case pos =>
    by_contra other
    exact refs_ne_empty (none ▸ Ne.symm other) (eq.symm.trans (none ▸ rfl))
  case neg =>
    have some' : bs' ≠ [] := fun none' => refs_ne_empty none (eq.trans (none' ▸ rfl))
    have texts := intercalate_inj (listed plain) (listed plain') (by simpa using none)
      (by simpa using some') eq
    exact map_inj_of_forall (fun _ _ => BitRef.text_inj) plain plain' texts

theorem madeOf_angles (as : List Float) :
    MadeOf (fun ch => isAngleChar ch || ch == ',') (",".intercalate (as.map Angle.text)) := by
  refine .intercalate (by decide) (List.forall_mem_map.mpr fun a _ => ?_)
  exact (Angle.madeOf_text a).imp fun ch h => by simp [h]

theorem angles_inj {as as' : List Float} (some : as ≠ []) (some' : as' ≠ [])
    (eq : ",".intercalate (as.map Angle.text) = ",".intercalate (as'.map Angle.text)) :
    as.map Angle.text = as'.map Angle.text := by
  have listed : ∀ as : List Float, ∀ l ∈ as.map Angle.text, MadeOf (· ≠ ',') l := fun as =>
    List.forall_mem_map.mpr fun a _ => (Angle.madeOf_text a).avoids (by decide)
  exact intercalate_inj (listed as) (listed as') (by simpa using some) (by simpa using some') eq

-- The operands are all that is left of a line.
theorem closed_refs_inj (plain : ∀ b ∈ bs, b.HasPlainName) (plain' : ∀ b ∈ bs', b.HasPlainName)
    (eq : (refs bs).toList ++ [';'] = (refs bs').toList ++ [';']) : bs = bs' :=
  refs_inj plain plain' (String.toList_inj.mp (List.append_cancel_right eq))

theorem statement_gate_inj {g g' : Gate} (plain : ∀ b ∈ qs, b.HasPlainName)
    (plain' : ∀ b ∈ qs', b.HasPlainName) (name : g.name = g'.name)
    (eq : statement (.gate g) qs bs = statement (.gate g') qs' bs') :
    g.params.map Angle.text = g'.params.map Angle.text ∧ qs = qs' := by
  have count : g.params.length = g'.params.length := by
    have := g.paramCount?_name
    rw [name, g'.paramCount?_name] at this
    exact (Option.some.inj this).symm
  replace eq := congrArg String.toList eq
  rw [toList_statement_gate, toList_statement_gate, name] at eq
  replace eq := List.append_cancel_left eq
  by_cases none : g.params = []
  case pos =>
    have none' : g'.params = [] := List.length_eq_zero_iff.mp (by rw [← count, none]; rfl)
    rw [if_pos none, if_pos none'] at eq
    exact ⟨by rw [none, none'], closed_refs_inj plain plain' (List.cons.inj eq).2⟩
  case neg =>
    have some' : g'.params ≠ [] := fun none' =>
      none (List.length_eq_zero_iff.mp (by rw [count, none']; rfl))
    rw [if_neg none, if_neg some'] at eq
    have ⟨angles, _, rest⟩ := append_cons_inj (madeOf_angles g.params) (madeOf_angles g'.params)
      (by decide) (by decide) (List.cons.inj eq).2
    exact ⟨angles_inj none some' (String.toList_inj.mp angles),
      closed_refs_inj plain plain' (List.cons.inj rest).2⟩

theorem statement_measure_inj (plainQ : ∀ b ∈ qs, b.HasPlainName)
    (plainQ' : ∀ b ∈ qs', b.HasPlainName) (plainB : ∀ b ∈ bs, b.HasPlainName)
    (plainB' : ∀ b ∈ bs', b.HasPlainName) (eq : statement .measure qs bs = statement .measure qs' bs') :
    qs = qs' ∧ bs = bs' := by
  replace eq := congrArg String.toList eq
  rw [toList_statement_measure, toList_statement_measure] at eq
  have ⟨qubits, _, rest⟩ := append_cons_inj (madeOf_refs plainQ) (madeOf_refs plainQ') (by decide)
    (by decide) (List.cons.inj (List.append_cancel_left eq)).2
  simp only [List.cons.injEq, true_and] at rest
  exact ⟨refs_inj plainQ plainQ' (String.toList_inj.mp qubits), closed_refs_inj plainB plainB' rest⟩

theorem statement_inj {a a' : Action} (plainQ : ∀ b ∈ qs, b.HasPlainName)
    (plainQ' : ∀ b ∈ qs', b.HasPlainName) (plainB : ∀ b ∈ bs, b.HasPlainName)
    (plainB' : ∀ b ∈ bs', b.HasPlainName) (eq : statement a qs bs = statement a' qs' bs') :
    a.Agrees a' ∧ qs = qs' ∧ (a = .measure → bs = bs') := by
  have name : a.name = a'.name := by
    rw [← keyword_statement a qs bs, eq, keyword_statement]
  cases a <;> cases a'
  case gate.gate g g' =>
    have ⟨params, qubits⟩ := statement_gate_inj plainQ plainQ' name eq
    exact ⟨.gate name params, qubits, nofun⟩
  case measure.measure =>
    have ⟨qubits, clbits⟩ := statement_measure_inj plainQ plainQ' plainB plainB' eq
    exact ⟨.measure, qubits, fun _ => clbits⟩
  case barrier.barrier =>
    replace eq := congrArg String.toList eq
    rw [toList_statement_barrier, toList_statement_barrier] at eq
    have rest := (List.cons.inj (List.append_cancel_left eq)).2
    exact ⟨.barrier, closed_refs_inj plainQ plainQ' rest, nofun⟩
  -- No two kinds of actions have a name in common.
  case gate.measure g => exact absurd (by simp [show g.name = "measure" from name]) g.name_notMem
  case gate.barrier g => exact absurd (by simp [show g.name = "barrier" from name]) g.name_notMem
  case measure.gate g => exact absurd (by simp [show "measure" = g.name from name]) g.name_notMem
  case barrier.gate g => exact absurd (by simp [show "barrier" = g.name from name]) g.name_notMem
  case measure.barrier => simp [Action.name] at name
  case barrier.measure => simp [Action.name] at name

-- No line holds a line break.
theorem madeOf_declaration {word : String} {r : Register} (whole : MadeOf (· ≠ '\n') word)
    (plain : r.HasPlainName) : MadeOf (· ≠ '\n') (declaration word r) := by
  have name := plain.2.avoids (c := '\n') (by decide)
  have size := (MadeOf.decimal r.size).avoids (c := '\n') (by decide)
  exact ((((whole.append (by decide)).append name).append (by decide)).append size).append (by decide)

theorem madeOf_head (g : Gate) : MadeOf (· ≠ '\n') (head g) := by
  have name : MadeOf (· ≠ '\n') g.name := by cases g <;> simp only [Gate.name] <;> decide
  have angles := (madeOf_angles g.params).avoids (c := '\n') (by decide)
  rw [head]
  split
  case isTrue => exact name
  case isFalse => exact ((name.append (by decide)).append angles).append (by decide)

theorem madeOf_statement (a : Action) (plainQ : ∀ b ∈ qs, b.HasPlainName)
    (plainB : ∀ b ∈ bs, b.HasPlainName) : MadeOf (· ≠ '\n') (statement a qs bs) := by
  have qubits := (madeOf_refs plainQ).avoids (c := '\n') (by decide)
  have clbits := (madeOf_refs plainB).avoids (c := '\n') (by decide)
  cases a
  case gate g => exact (((madeOf_head g).append (by decide)).append qubits).append (by decide)
  case measure =>
    have quantum := MadeOf.append (s := "measure ") (by decide) qubits
    exact ((quantum.append (by decide)).append clbits).append (by decide)
  case barrier => exact (MadeOf.append (by decide) qubits).append (by decide)

section Circuit

variable {c c' : Circuit} {i j : Instruction} {line text : String} {ls : List String}

-- Positions have the names of their registers.
theorem plain_of_names {rs : List Register} {ns : List Nat} (plain : ∀ r ∈ rs, r.HasPlainName)
    (names : Names (Register.allBits rs) ns bs) : ∀ b ∈ bs, b.HasPlainName := by
  intro b hb
  have ⟨n, _, found⟩ := exists_left_of_forall₂ names hb
  have ⟨r, hr, name⟩ := List.mem_map.mp (Register.name_mem_of_mem_allBits (List.mem_of_getElem? found))
  rw [BitRef.HasPlainName, ← name]
  exact (plain r hr).2

theorem names_inj {rs : List Register} {ns ns' : List Nat} (nodup : (rs.map Register.name).Nodup)
    (names : Names (Register.allBits rs) ns bs) (names' : Names (Register.allBits rs) ns' bs) :
    ns = ns' := by
  refine List.left_unique_forall₂' ?_ names names'
  exact fun _ _ _ h h' => Register.getElem?_allBits_inj nodup h h'

theorem declaration_inj {word : String} {r r' : Register} (plain : r.HasPlainName)
    (plain' : r'.HasPlainName) (eq : declaration word r = declaration word r') : r = r' := by
  replace eq := congrArg String.toList eq
  rw [toList_declaration, toList_declaration] at eq
  have ⟨name, _, rest⟩ := append_cons_inj plain.2 plain'.2 (by decide) (by decide)
    (List.cons.inj (List.append_cancel_left eq)).2
  have size := toString_inj (List.append_cancel_right rest)
  cases r
  cases r'
  cases String.toList_inj.mp name
  cases size
  rfl

theorem shownClbits_of_plain (plain : i.Plain) : shownClbits i = i.clbits := by
  rw [shownClbits]
  split
  case isTrue => rfl
  case isFalse other => exact (plain.resolve_left other).symm

-- Instructions with the same line agree if the registers are the same.
theorem agrees_of_spells (built : c.Built) (plain : c.HasPlainNames) (qregs : c.qregs = c'.qregs)
    (cregs : c.cregs = c'.cregs) (plainI : i.Plain) (plainJ : j.Plain) (h : Spells c i line)
    (h' : Spells c' j line) : i.Agrees j := by
  have ⟨qs, bs, quantum, classical, eq⟩ := h
  have ⟨qs', bs', quantum', classical', eq'⟩ := h'
  rw [Circuit.qubits, ← qregs] at quantum'
  rw [Circuit.clbits, ← cregs, shownClbits_of_plain plainJ] at classical'
  rw [shownClbits_of_plain plainI] at classical
  have ⟨action, sameQ, sameB⟩ := statement_inj (plain_of_names plain.1 quantum)
    (plain_of_names plain.1 quantum') (plain_of_names plain.2 classical)
    (plain_of_names plain.2 classical') (eq.symm.trans eq')
  subst sameQ
  refine ⟨action, names_inj built.nodup_qregs quantum quantum', ?_⟩
  by_cases measure : i.action = .measure
  case pos =>
    rw [sameB measure] at classical
    exact names_inj built.nodup_cregs classical classical'
  case neg =>
    have none : ∀ {k : Instruction}, k.Plain → k.action ≠ .measure → k.clbits = [] :=
      fun plain other => plain.resolve_left (other ∘ Instruction.action_of_isMeasure)
    rw [none plainI measure, none plainJ (measure ∘ action.measure_iff.mpr)]

theorem madeOf_lines (built : c.Built) (plain : c.HasPlainNames) (h : program c = .ok ls) :
    ∀ l ∈ ls, MadeOf (· ≠ '\n') l := by
  have ⟨body, spelled, eq⟩ := spells_of_program built h
  have opening : ∀ l ∈ header, MadeOf (· ≠ '\n') l := by decide
  have quantum : ∀ l ∈ c.qregs.map (declaration "qreg"), MadeOf (· ≠ '\n') l :=
    List.forall_mem_map.mpr fun r hr => madeOf_declaration (by decide) (plain.1 r hr)
  have classical : ∀ l ∈ c.cregs.map (declaration "creg"), MadeOf (· ≠ '\n') l :=
    List.forall_mem_map.mpr fun r hr => madeOf_declaration (by decide) (plain.2 r hr)
  have statements : ∀ l ∈ body, MadeOf (· ≠ '\n') l := by
    intro l hl
    have ⟨i, _, qs, bs, quantum, classical, eq⟩ := exists_left_of_forall₂ spelled hl
    rw [eq]
    exact madeOf_statement _ (plain_of_names plain.1 quantum) (plain_of_names plain.2 classical)
  rw [eq]
  simp only [List.forall_mem_append]
  exact ⟨⟨⟨opening, quantum⟩, classical⟩, statements⟩

theorem emit_determines (built : c.Built) (built' : c'.Built) (names : c.HasPlainNames)
    (names' : c'.HasPlainNames) (plain : ∀ i ∈ c.dag.instructions, i.Plain)
    (plain' : ∀ i ∈ c'.dag.instructions, i.Plain)
    (h : emit c = .ok text) (h' : emit c' = .ok text) :
    c.qregs = c'.qregs ∧ c.cregs = c'.cregs ∧
      List.Forall₂ Instruction.Agrees c.dag.instructions c'.dag.instructions := by
  have ⟨ls, program, joined⟩ := map_eq_ok_iff.mp h
  have ⟨ls', program', joined'⟩ := map_eq_ok_iff.mp h'
  have same : ls = ls' := lines_inj (madeOf_lines built names program)
    (madeOf_lines built' names' program') (joined.trans joined'.symm)
  subst same
  have ⟨quantum, classical⟩ := filter_keyword program
  have ⟨quantum', classical'⟩ := filter_keyword program'
  have qregs : c.qregs = c'.qregs := map_inj_of_forall (fun _ _ => declaration_inj) names.1 names'.1
    (quantum.symm.trans quantum')
  have cregs : c.cregs = c'.cregs := map_inj_of_forall (fun _ _ => declaration_inj) names.2 names'.2
    (classical.symm.trans classical')
  have ⟨body, spelled, eq⟩ := spells_of_program built program
  have ⟨body', spelled', eq'⟩ := spells_of_program built' program'
  have same : body = body' := by
    rw [eq, qregs, cregs] at eq'
    exact List.append_cancel_left eq'
  subst same
  exact ⟨qregs, cregs, forall₂_of_common spelled spelled' fun i hi j hj _ =>
    agrees_of_spells built names qregs cregs (plain i hi) (plain' j hj)⟩

-- A gate with an angle, a barrier and a measurement.
def turned (name : String) (angle : Float) : Circuit :=
  let c := Circuit.ofSize name 2 1
  let c := { c with dag := (c.dag.append (.gate (.u1 angle) [1])).2 }
  let c := { c with dag := (c.dag.append (.barrier [0, 1])).2 }
  { c with dag := (c.dag.append (.measure 1 0)).2 }

theorem built_turned (name : String) (angle : Float) : (turned name angle).Built :=
  .append _ (.append _ (.append _ (Circuit.built_ofSize name 2 1)))

-- An angle that is almost zero is written as zero.
theorem emit_determines_turned : ∃ text, emit (turned "exact" 0) = .ok text ∧
    emit (turned "near" 1e-13) = .ok text ∧
    List.Forall₂ Instruction.Agrees (turned "exact" 0).dag.instructions
      (turned "near" 1e-13).dag.instructions := by
  have text : emit (turned "exact" 0) = .ok
      ("OPENQASM 2.0;\ninclude \"qelib1.inc\";\nqreg q[2];\ncreg c[1];\n" ++
        "u1(0) q[1];\nbarrier q[0],q[1];\nmeasure q[1] -> c[0];\n") := by
    decide +kernel
  have text' : emit (turned "near" 1e-13) = emit (turned "exact" 0) := by decide +kernel
  have names : (turned "exact" 0).HasPlainNames := ⟨by decide +kernel, by decide +kernel⟩
  have names' : (turned "near" 1e-13).HasPlainNames := ⟨by decide +kernel, by decide +kernel⟩
  have plain : ∀ i ∈ (turned "exact" 0).dag.instructions, i.isMeasure ∨ i.clbits = [] := by
    decide +kernel
  have plain' : ∀ i ∈ (turned "near" 1e-13).dag.instructions, i.isMeasure ∨ i.clbits = [] := by
    decide +kernel
  have ⟨_, _, same⟩ := emit_determines (built_turned _ _) (built_turned _ _) names names' plain plain'
    text (text'.trans text)
  exact ⟨_, text, text'.trans text, same⟩

end Circuit

end Qasm

end CircuitRouting
