import CircuitRouting.Proofs.Angle
import CircuitRouting.Proofs.Circuit.Registers
import CircuitRouting.Qasm

/-!
# The lines of a program

Each line of a program starts with a keyword. The line of an operation is its statement: the name of the
operation, its parameters, and the positions it acts on.
-/

namespace CircuitRouting

-- The other words that a line can start with are not names of gates.
theorem Gate.name_notMem (g : Gate) : g.name ∉ ["qreg", "creg", "measure", "barrier"] := by
  cases g <;> simp [name]

theorem Instruction.action_of_isMeasure {i : Instruction} (h : i.isMeasure) : i.action = .measure := by
  rw [isMeasure] at h
  split at h
  case h_1 action => exact action
  case h_2 => contradiction

namespace Qasm

-- The first word of a line; a blank or the parameters come after it.
def keyword (line : String) : String :=
  String.ofList (line.toList.takeWhile fun ch => ch ≠ ' ' ∧ ch ≠ '(')

theorem keyword_eq {line word : String} {ch : Char} {rest : List Char}
    (eq : line.toList = word.toList ++ ch :: rest) (whole : MadeOf (fun ch => ch ≠ ' ' ∧ ch ≠ '(') word)
    (stop : ch = ' ' ∨ ch = '(') : keyword line = word := by
  rw [keyword, eq, takeWhile_append_cons whole (by simp; tauto), String.ofList_toList]

theorem toList_declaration (word : String) (r : Register) : (declaration word r).toList =
    word.toList ++ ' ' :: (r.name.toList ++ '[' :: ((toString r.size).toList ++ [']', ';'])) := by
  simp [declaration]

theorem keyword_declaration {word : String} (r : Register)
    (whole : MadeOf (fun ch => ch ≠ ' ' ∧ ch ≠ '(') word) : keyword (declaration word r) = word :=
  keyword_eq (toList_declaration word r) whole (.inl rfl)

-- The positions of operands, joined by commas.
def refs (bs : List BitRef) : String :=
  ",".intercalate (bs.map BitRef.text)

-- The line of an action on these positions.
def statement (a : Action) (qs bs : List BitRef) : String :=
  match a with
  | .gate g => head g ++ " " ++ refs qs ++ ";"
  | .measure => "measure " ++ refs qs ++ " -> " ++ refs bs ++ ";"
  | .barrier => "barrier " ++ refs qs ++ ";"

theorem toList_statement_gate (g : Gate) (qs bs : List BitRef) :
    (statement (.gate g) qs bs).toList = g.name.toList ++
      if g.params = [] then ' ' :: ((refs qs).toList ++ [';'])
      else '(' :: ((",".intercalate (g.params.map Angle.text)).toList ++
        ')' :: ' ' :: ((refs qs).toList ++ [';'])) := by
  by_cases none : g.params = []
  case pos => simp [statement, head, none]
  case neg =>
    have some : g.params.isEmpty = false := by simpa using none
    simp only [statement, head, none, some, String.toList_append]
    simp

theorem toList_statement_measure (qs bs : List BitRef) :
    (statement .measure qs bs).toList = "measure".toList ++
      ' ' :: ((refs qs).toList ++ ' ' :: '-' :: '>' :: ' ' :: ((refs bs).toList ++ [';'])) := by
  simp [statement]

theorem toList_statement_barrier (qs bs : List BitRef) :
    (statement .barrier qs bs).toList = "barrier".toList ++ ' ' :: ((refs qs).toList ++ [';']) := by
  simp [statement]

theorem madeOf_name (a : Action) : MadeOf (fun ch => ch ≠ ' ' ∧ ch ≠ '(') a.name := by
  cases a
  case gate g => cases g <;> simp only [Action.name, Gate.name] <;> decide
  case measure => decide
  case barrier => decide

-- The keyword of a statement is the name of its action.
theorem keyword_statement (a : Action) (qs bs : List BitRef) : keyword (statement a qs bs) = a.name := by
  cases a
  case gate g =>
    have eq := toList_statement_gate g qs bs
    split at eq
    case isTrue => exact keyword_eq eq (madeOf_name (.gate g)) (.inl rfl)
    case isFalse => exact keyword_eq eq (madeOf_name (.gate g)) (.inr rfl)
  case measure => exact keyword_eq (toList_statement_measure qs bs) (madeOf_name .measure) (.inl rfl)
  case barrier => exact keyword_eq (toList_statement_barrier qs bs) (madeOf_name .barrier) (.inl rfl)

section Lines

variable {c : Circuit} {i : Instruction} {ls : List String} {d : Dag}

-- Numbers and the positions that they stand for.
abbrev Names (bits : List BitRef) (ns : List Nat) (bs : List BitRef) : Prop :=
  List.Forall₂ (fun n b => bits[n]? = some b) ns bs

-- The classical bits that a line shows: those of a measurement.
def shownClbits (i : Instruction) : List Nat :=
  if i.isMeasure then i.clbits else []

-- A line that is the statement of an instruction of a circuit.
def Spells (c : Circuit) (i : Instruction) (line : String) : Prop :=
  ∃ qs bs, Names c.qubits i.qubits qs ∧ Names c.clbits (shownClbits i) bs ∧
    line = statement i.action qs bs

theorem qubit_eq_ok_iff {q : Nat} {s : String} :
    qubit c q = .ok s ↔ ∃ b, c.qubits[q]? = some b ∧ b.text = s := by
  rw [qubit]
  split <;> simp_all

theorem clbit_eq_ok_iff {n : Nat} {s : String} :
    clbit c n = .ok s ↔ ∃ b, c.clbits[n]? = some b ∧ b.text = s := by
  rw [clbit]
  split <;> simp_all

theorem of_operands {ns : List Nat} {s : String} (h : operands c ns = .ok s) :
    ∃ bs, Names c.qubits ns bs ∧ s = refs bs := by
  have ⟨texts, named, joined⟩ := map_eq_ok_iff.mp h
  have ⟨bs, names, texts'⟩ := exists_between_of_forall₂
    ((mapM_eq_ok_iff.mp named).imp fun _ _ => qubit_eq_ok_iff.mp)
  have same : bs.map BitRef.text = texts := by
    rw [← List.forall₂_eq_eq_eq, List.forall₂_map_left_iff]
    exact texts'
  exact ⟨bs, names, by rw [← joined, refs, same]⟩

-- One line for each measured qubit.
theorem of_lines_measure (action : i.action = .measure) (h : lines c i = .ok ls) :
    List.Forall₂ (fun x line => ∃ q b, c.qubits[x.1]? = some q ∧ c.clbits[x.2]? = some b ∧
      line = statement i.action [q] [b]) (i.qubits.zip i.clbits) ls := by
  simp only [lines, action] at h
  split at h
  case isTrue => contradiction
  case isFalse =>
    refine (mapM_eq_ok_iff.mp h).imp fun x line step => ?_
    have ⟨q, quantum, step⟩ := bind_eq_ok_iff.mp step
    have ⟨b, classical, step⟩ := bind_eq_ok_iff.mp step
    have ⟨q', hq, textQ⟩ := qubit_eq_ok_iff.mp quantum
    have ⟨b', hb, textB⟩ := clbit_eq_ok_iff.mp classical
    cases step
    exact ⟨q', b', hq, hb, by simp [action, statement, refs, textQ, textB]⟩

-- One line for anything else.
theorem of_lines (other : i.action ≠ .measure) (h : lines c i = .ok ls) :
    ∃ qs, Names c.qubits i.qubits qs ∧ ls = [statement i.action qs []] := by
  cases action : i.action
  case gate g =>
    simp only [lines, action] at h
    split at h
    case isTrue => contradiction
    case isFalse =>
      have ⟨s, named, eq⟩ := map_eq_ok_iff.mp h
      have ⟨qs, names, joined⟩ := of_operands named
      exact ⟨qs, names, by rw [← eq, joined]; rfl⟩
  case measure => exact absurd action other
  case barrier =>
    simp only [lines, action] at h
    have ⟨s, named, eq⟩ := map_eq_ok_iff.mp h
    have ⟨qs, names, joined⟩ := of_operands named
    exact ⟨qs, names, by rw [← eq, joined]; rfl⟩

theorem keyword_of_lines (h : lines c i = .ok ls) : ∀ l ∈ ls, keyword l = i.name := by
  intro l hl
  by_cases action : i.action = .measure
  case pos =>
    have ⟨x, _, q, b, _, _, eq⟩ := exists_left_of_forall₂ (of_lines_measure action h) hl
    rw [eq, keyword_statement, Instruction.name]
  case neg =>
    have ⟨qs, _, eq⟩ := of_lines action h
    rw [eq, List.mem_singleton] at hl
    rw [hl, keyword_statement, Instruction.name]

-- An instruction that fits a graph has one line.
theorem spells_of_lines (fits : d.Fits i) (h : lines c i = .ok ls) :
    ∃ line, ls = [line] ∧ Spells c i line := by
  by_cases action : i.action = .measure
  case pos =>
    have ⟨q, qubits⟩ := List.length_eq_one_iff.mp (fits.arity 1 (by simp [action, Action.arity?]))
    have measure : i.isMeasure := by simp [Instruction.isMeasure, action]
    have ⟨b, clbits⟩ := List.length_eq_one_iff.mp (fits.measure measure)
    have measured := of_lines_measure action h
    rw [qubits, clbits] at measured
    match ls, measured with
    | [line], .cons ⟨r, r', hr, hr', eq⟩ .nil =>
      refine ⟨line, rfl, [r], [r'], ?_, ?_, eq⟩
      case refine_1 => simpa [qubits] using hr
      case refine_2 => simpa [shownClbits, measure, clbits] using hr'
  case neg =>
    have ⟨qs, names, eq⟩ := of_lines action h
    refine ⟨_, eq, qs, [], names, ?_, rfl⟩
    have other : ¬i.isMeasure := fun measure => action (Instruction.action_of_isMeasure measure)
    simp [shownClbits, other]

end Lines

section Program

variable {c : Circuit} {ls : List String}

theorem of_program (h : program c = .ok ls) :
    ∃ body, List.Forall₂ (fun i ls => lines c i = .ok ls) c.dag.instructions body ∧
      ls = header ++ c.qregs.map (declaration "qreg") ++ c.cregs.map (declaration "creg") ++
        body.flatten := by
  have ⟨body, emitted, eq⟩ := bind_eq_ok_iff.mp h
  exact ⟨body, mapM_eq_ok_iff.mp emitted, (Except.ok.inj eq).symm⟩

theorem forall₂_flatten {α β : Type} {R : α → List β → Prop} {S : α → β → Prop} {as : List α}
    {blocks : List (List β)} (h : List.Forall₂ R as blocks)
    (single : ∀ a ∈ as, ∀ block, R a block → ∃ b, block = [b] ∧ S a b) :
    List.Forall₂ S as blocks.flatten := by
  induction h
  case nil => exact .nil
  case cons a block as blocks here _ hi =>
    have ⟨b, eq, rel⟩ := single a (by simp) block here
    rw [eq]
    exact .cons rel (hi fun a ha => single a (by simp [ha]))

-- Each operation has one line if all of them fit the graph.
theorem spells_of_fits (fits : ∀ i ∈ c.dag.instructions, c.dag.Fits i) (h : program c = .ok ls) :
    ∃ body, List.Forall₂ (Spells c) c.dag.instructions body ∧
      ls = header ++ c.qregs.map (declaration "qreg") ++ c.cregs.map (declaration "creg") ++ body := by
  have ⟨blocks, emitted, eq⟩ := of_program h
  exact ⟨blocks.flatten, forall₂_flatten emitted fun i hi _ h => spells_of_lines (fits i hi) h, eq⟩

theorem spells_of_program (built : c.Built) (h : program c = .ok ls) :
    ∃ body, List.Forall₂ (Spells c) c.dag.instructions body ∧
      ls = header ++ c.qregs.map (declaration "qreg") ++ c.cregs.map (declaration "creg") ++ body := by
  refine spells_of_fits (fun i hi => ?_) h
  have ⟨x, hx, same⟩ := List.mem_map.mp hi
  exact built.fits x.1 i (same ▸ (Dag.mem_opsAt.mp hx).2)

-- No operation is called like a declaration.
theorem name_ne_declaration (a : Action) : a.name ≠ "qreg" ∧ a.name ≠ "creg" := by
  cases a
  case gate g =>
    have other := g.name_notMem
    simp only [List.mem_cons, not_or] at other
    exact ⟨other.1, other.2.1⟩
  case measure => simp [Action.name]
  case barrier => simp [Action.name]

theorem filter_keyword (h : program c = .ok ls) :
    ls.filter (keyword · = "qreg") = c.qregs.map (declaration "qreg") ∧
      ls.filter (keyword · = "creg") = c.cregs.map (declaration "creg") := by
  have ⟨body, emitted, eq⟩ := of_program h
  have other : ∀ l ∈ body.flatten, keyword l ≠ "qreg" ∧ keyword l ≠ "creg" := by
    intro l hl
    have ⟨block, hblock, mem⟩ := List.mem_flatten.mp hl
    have ⟨i, _, lines⟩ := exists_left_of_forall₂ emitted hblock
    rw [keyword_of_lines lines l mem]
    exact name_ne_declaration i.action
  have quantum : ∀ l ∈ c.qregs.map (declaration "qreg"), keyword l = "qreg" := by
    simp only [List.forall_mem_map]
    exact fun r _ => keyword_declaration r (by decide)
  have classical : ∀ l ∈ c.cregs.map (declaration "creg"), keyword l = "creg" := by
    simp only [List.forall_mem_map]
    exact fun r _ => keyword_declaration r (by decide)
  have opening : ∀ l ∈ header, keyword l ≠ "qreg" ∧ keyword l ≠ "creg" := by decide
  have drop : ∀ {word : String} {ls : List String}, (∀ l ∈ ls, keyword l ≠ word) →
      ls.filter (keyword · = word) = [] := fun h => List.filter_eq_nil_iff.mpr (by simpa using h)
  have keep : ∀ {word : String} {ls : List String}, (∀ l ∈ ls, keyword l = word) →
      ls.filter (keyword · = word) = ls := fun h => List.filter_eq_self.mpr (by simpa using h)
  rw [eq]
  simp only [List.filter_append]
  rw [drop fun l hl => (opening l hl).1, keep quantum, drop fun l hl => classical l hl ▸ (by decide),
    drop fun l hl => (other l hl).1, drop fun l hl => (opening l hl).2,
    drop fun l hl => quantum l hl ▸ (by decide), keep classical, drop fun l hl => (other l hl).2]
  simp

end Program

end Qasm

end CircuitRouting
