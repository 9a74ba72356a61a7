import CircuitRouting.Proofs.Circuit.Registers

/-!
# Registers and the table of their positions

A circuit can keep a table of its positions, to which a register that is declared adds its own, each with
the next number. However the circuit was made, the table lists the positions of its registers in order. A
position has the number `k` exactly if it is entry `k` of the table, provided that the registers which the
circuit was made with, apart from the empty ones, have different names.
-/

namespace CircuitRouting

namespace Register

variable {rs : List Register} {r : Register}

-- Registers of which the ones with positions have different names.
def Distinct (rs : List Register) : Prop := ((rs.filter (0 < ·.size)).map name).Nodup

instance : Decidable (Distinct rs) := inferInstanceAs (Decidable (List.Nodup _))

-- A register is added unless its name is taken.
def extend (rs : List Register) (r : Register) : List Register :=
  if rs.any fun d => d.name == r.name then rs else rs ++ [r]

theorem nodup_names_extend (h : (rs.map name).Nodup) : ((extend rs r).map name).Nodup := by
  rw [extend]
  split
  case isTrue => exact h
  case isFalse fresh => exact Circuit.nodup_concat_name h fresh

theorem prefix_extend : rs <+: extend rs r := by
  rw [extend]
  split
  case isTrue => exact List.prefix_rfl
  case isFalse => exact List.prefix_append _ _

theorem allBits_append (rs rs' : List Register) : allBits (rs ++ rs') = allBits rs ++ allBits rs' :=
  List.flatMap_append

theorem prefix_allBits {rs' : List Register} (h : rs <+: rs') : allBits rs <+: allBits rs' := by
  have ⟨later, eq⟩ := h
  exact eq ▸ allBits_append rs later ▸ List.prefix_append _ _

theorem allBits_filter (rs : List Register) : allBits (rs.filter (0 < ·.size)) = allBits rs := by
  induction rs
  case nil => rfl
  case cons r rs hi =>
    by_cases empty : r.size = 0
    case pos => simp [allBits_cons, hi, empty, bits]
    case neg => simp [allBits_cons, hi, Nat.pos_of_ne_zero empty]

-- Two registers of one name have its first position in common.
theorem nodup_names_of_nodup_allBits (filled : ∀ r ∈ rs, 0 < r.size) (h : (allBits rs).Nodup) :
    (rs.map name).Nodup := by
  induction rs
  case nil => exact .nil
  case cons r rs hi =>
    have ⟨here, filled⟩ := List.forall_mem_cons.mp filled
    have ⟨_, later, apart⟩ := List.nodup_append.mp (allBits_cons ▸ h)
    have first : ∀ r : Register, 0 < r.size → BitRef.mk r.name 0 ∈ r.bits := fun r pos =>
      List.mem_map.mpr ⟨0, List.mem_range.mpr pos, rfl⟩
    refine List.nodup_cons.mpr ⟨fun mem => ?_, hi filled later⟩
    have ⟨r', hr', same⟩ := List.mem_map.mp mem
    exact apart _ (first r here) _ (List.mem_flatMap.mpr ⟨r', hr', first r' (filled r' hr')⟩) (by rw [same])

@[simp]
theorem distinct_nil : Distinct [] := .nil

@[simp]
theorem distinct_singleton (r : Register) : Distinct [r] :=
  List.Nodup.sublist (List.filter_sublist.map name) (List.nodup_singleton _)

end Register

structure Declaration where
  kind : RegisterKind
  register : Register
deriving Repr

-- Registers, and the positions that have been given a number.
structure Ledger where
  registers : List Register := []
  entries : List (BitRef × Nat) := []

namespace Ledger

variable {led : Ledger} {kind : RegisterKind} {ds : List Declaration}

-- The positions of a register, each with the next number.
def enter (entries : List (BitRef × Nat)) (r : Register) : List (BitRef × Nat) :=
  (List.range r.size).foldl (fun es i => es ++ [(⟨r.name, i⟩, es.length)]) entries

def push (led : Ledger) (r : Register) : Ledger where
  registers := led.registers ++ [r]
  entries := enter led.entries r

def single (r : Register) : Ledger := if 0 < r.size then push {} r else {}

-- Empty registers are entered like the others, and then dropped.
def assign (rs : List Register) : Ledger where
  registers := rs.filter (0 < ·.size)
  entries := rs.foldl enter []

def declare (led : Ledger) (r : Register) : Ledger :=
  if led.registers.any fun d => d.name == r.name then led else led.push r

-- The declarations of a kind; the others are for another table.
def declareAll (led : Ledger) (kind : RegisterKind) (ds : List Declaration) : Ledger :=
  ds.foldl (fun led d => if d.kind = kind then led.declare d.register else led) led

-- The table lists the positions of the registers in order, and numbers them from zero.
def Filled (led : Ledger) : Prop := led.entries = (Register.allBits led.registers).zipIdx

-- A lookup finds what the first `size` entries say, and nothing else.
def Exact (led : Ledger) (size : Nat) (find : String → Nat → Except CircuitError Nat) : Prop :=
  ∀ name index k, find name index = .ok k ↔ k < size ∧ led.entries[k]? = some (⟨name, index⟩, k)

theorem enter_zipIdx (bs : List BitRef) (r : Register) : enter bs.zipIdx r = (bs ++ r.bits).zipIdx := by
  suffices ∀ is : List Nat, is.foldl (fun es i => es ++ [(⟨r.name, i⟩, es.length)]) bs.zipIdx =
      (bs ++ is.map (BitRef.mk r.name)).zipIdx from this _
  intro is
  induction is generalizing bs
  case nil => simp
  case cons i is hi =>
    have next : bs.zipIdx ++ [(BitRef.mk r.name i, bs.zipIdx.length)] =
        (bs ++ [BitRef.mk r.name i]).zipIdx := by
      simp [List.zipIdx_append]
    rw [List.foldl_cons, next, hi, List.map_cons, List.append_assoc, List.singleton_append]

theorem foldl_enter (bs : List BitRef) (rs : List Register) :
    rs.foldl enter bs.zipIdx = (bs ++ Register.allBits rs).zipIdx := by
  induction rs generalizing bs
  case nil => simp [Register.allBits]
  case cons r rs hi => rw [List.foldl_cons, enter_zipIdx, hi, Register.allBits_cons, List.append_assoc]

theorem registers_single (r : Register) : (single r).registers = [r].filter (0 < ·.size) := by
  by_cases empty : r.size = 0
  case pos => simp [single, empty]
  case neg => simp [single, push, Nat.pos_of_ne_zero empty]

theorem registers_declare (led : Ledger) (r : Register) :
    (led.declare r).registers = Register.extend led.registers r := by
  rw [declare, Register.extend]
  split <;> rfl

-- Declarations keep what each of them keeps.
theorem of_declareAll {p : Ledger → Prop} (step : ∀ led r, p led → p (declare led r)) (h : p led)
    (kind : RegisterKind) (ds : List Declaration) : p (led.declareAll kind ds) := by
  induction ds generalizing led
  case nil => exact h
  case cons d ds hi =>
    rw [declareAll, List.foldl_cons]
    split
    case isTrue => exact hi (step led d.register h)
    case isFalse => exact hi h

theorem prefix_declareAll (led : Ledger) (kind : RegisterKind) (ds : List Declaration) :
    led.registers <+: (led.declareAll kind ds).registers := by
  refine of_declareAll (p := fun led' => led.registers <+: led'.registers) (fun led' r h => ?_)
    List.prefix_rfl kind ds
  rw [registers_declare]
  exact h.trans Register.prefix_extend

theorem nodup_names_declareAll (h : (led.registers.map Register.name).Nodup) (kind : RegisterKind)
    (ds : List Declaration) : ((led.declareAll kind ds).registers.map Register.name).Nodup := by
  refine of_declareAll (p := fun led => (led.registers.map Register.name).Nodup) (fun led r h => ?_)
    h kind ds
  rw [registers_declare]
  exact Register.nodup_names_extend h

theorem filled_empty : Filled {} := rfl

namespace Filled

theorem push (h : led.Filled) (r : Register) : (led.push r).Filled := by
  have single : Register.allBits [r] = r.bits := by simp [Register.allBits]
  rw [Filled] at h
  rw [Filled, Ledger.push, h, enter_zipIdx, Register.allBits_append, single]

theorem declare (h : led.Filled) (r : Register) : (led.declare r).Filled := by
  rw [Ledger.declare]
  split
  case isTrue => exact h
  case isFalse => exact h.push r

theorem getElem?_entries (h : led.Filled) {b : BitRef} {k : Nat} :
    led.entries[k]? = some (b, k) ↔ (Register.allBits led.registers)[k]? = some b := by
  rw [h, List.getElem?_zipIdx, Nat.zero_add]
  simp

-- Different names make a lookup exact.
theorem exact (h : led.Filled) (names : (led.registers.map Register.name).Nodup) :
    led.Exact (Register.total led.registers) (Register.locate led.registers) := by
  intro name index k
  rw [Register.locate_eq_ok_iff names, h.getElem?_entries, iff_and_self, ← Register.length_allBits]
  exact fun found => (List.getElem?_eq_some_iff.mp found).1

-- An exact lookup finds one number only, so no position is entered twice.
theorem nodup (h : led.Filled)
    (exact : led.Exact (Register.total led.registers) (Register.locate led.registers)) :
    (Register.allBits led.registers).Nodup := by
  rw [List.nodup_iff_getElem?_ne_getElem?]
  intro i j lt bound same
  have at_j := List.getElem?_eq_getElem bound
  rw [Register.length_allBits] at bound
  have found := (exact _ _ j).mpr ⟨bound, h.getElem?_entries.mpr at_j⟩
  have found' := (exact _ _ i).mpr ⟨lt.trans bound, h.getElem?_entries.mpr (same.trans at_j)⟩
  exact lt.ne (Except.ok.inj (found'.symm.trans found))

end Filled

theorem filled_single (r : Register) : (single r).Filled := by
  rw [single]
  split
  case isTrue => exact filled_empty.push r
  case isFalse => exact filled_empty

theorem filled_assign (rs : List Register) : (assign rs).Filled := by
  rw [Filled, assign, Register.allBits_filter]
  exact foldl_enter [] rs

end Ledger

namespace Circuit

-- The ways to make a circuit.
inductive Origin
  | named (name : String)
  | ofSize (name : String) (qubits clbits : Nat)
  | ofDag (d : Dag)
  | ofDagWithRegisters (name : String) (d : Dag) (qregs cregs : List Register)

variable {o : Origin} {c : Circuit} {kind : RegisterKind} {led : Ledger} {ds : List Declaration}

def registers (c : Circuit) : RegisterKind → List Register
  | .quantum => c.qregs
  | .classical => c.cregs

def declare (c : Circuit) (d : Declaration) : Except CircuitError Circuit :=
  match d.kind with
  | .quantum => (c.addQreg d.register.name d.register.size).map Prod.snd
  | .classical => (c.addCreg d.register.name d.register.size).map Prod.snd

-- A declaration that is refused leaves the circuit as it was.
def declareAll (c : Circuit) (ds : List Declaration) : Circuit :=
  ds.foldl (fun c d => (c.declare d).toOption.getD c) c

namespace Origin

def circuit : Origin → Except CircuitError Circuit
  | named name => .ok (.named name)
  | ofSize name qubits clbits => .ok (.ofSize name qubits clbits)
  | ofDag d => .ok (.ofDag d)
  | ofDagWithRegisters name d qregs cregs => Circuit.ofDagWithRegisters name d qregs cregs

def build (o : Origin) (ds : List Declaration) : Except CircuitError Circuit :=
  o.circuit.map (·.declareAll ds)

-- The registers that the caller names.
def given : Origin → RegisterKind → List Register
  | ofDagWithRegisters _ _ qregs _, .quantum => qregs
  | ofDagWithRegisters _ _ _ cregs, .classical => cregs
  | _, _ => []

-- The table that the circuit is made with.
def ledger : Origin → RegisterKind → Ledger
  | named _, _ => {}
  | ofSize _ qubits _, .quantum => .single ⟨"q", qubits⟩
  | ofSize _ _ clbits, .classical => .single ⟨"c", clbits⟩
  | ofDag d, .quantum => .assign [⟨"q", d.numQubits⟩]
  | ofDag d, .classical => .assign [⟨"c", d.numClbits⟩]
  | ofDagWithRegisters _ _ qregs _, .quantum => .assign qregs
  | ofDagWithRegisters _ _ _ cregs, .classical => .assign cregs

def table (o : Origin) (ds : List Declaration) (kind : RegisterKind) : Ledger :=
  (o.ledger kind).declareAll kind ds

end Origin

theorem getD_unless_refused {taken : Prop} [Decidable taken] {e : CircuitError} {x : List Nat × Circuit} :
    ((if taken then .error e else .ok x : Except CircuitError _).map Prod.snd).toOption.getD c =
      if taken then c else x.2 := by
  split <;> rfl

-- Only the registers of the kind that is declared change.
theorem registers_declare (c : Circuit) (d : Declaration) (kind : RegisterKind) :
    ((c.declare d).toOption.getD c).registers kind =
      if d.kind = kind then Register.extend (c.registers kind) d.register else c.registers kind := by
  obtain ⟨declared, r⟩ := d
  cases declared
  case quantum =>
    have outcome : (c.declare ⟨.quantum, r⟩).toOption.getD c =
        if c.qregs.any fun d => d.name == r.name then c else (c.pushQreg r).2 := getD_unless_refused
    rw [outcome, apply_ite (registers · kind)]
    cases kind
    case quantum => rfl
    case classical => exact ite_self _
  case classical =>
    have outcome : (c.declare ⟨.classical, r⟩).toOption.getD c =
        if c.cregs.any fun d => d.name == r.name then c else (c.pushCreg r).2 := getD_unless_refused
    rw [outcome, apply_ite (registers · kind)]
    cases kind
    case quantum => exact ite_self _
    case classical => rfl

theorem registers_declareAll (same : c.registers kind = led.registers) (ds : List Declaration) :
    (c.declareAll ds).registers kind = (led.declareAll kind ds).registers := by
  induction ds generalizing c led
  case nil => exact same
  case cons d ds hi =>
    refine hi ?_
    rw [registers_declare, same, apply_ite Ledger.registers, Ledger.registers_declare]

namespace Origin

theorem registers_circuit (h : o.circuit = .ok c) (kind : RegisterKind) :
    c.registers kind = (o.ledger kind).registers := by
  cases o
  case named =>
    cases h
    cases kind <;> rfl
  case ofSize name qubits clbits =>
    cases h
    by_cases quantum : 0 < qubits <;> by_cases classical : 0 < clbits <;> cases kind <;>
      simp [quantum, classical, Circuit.ofSize, Circuit.named, pushQreg, pushCreg, registers, ledger,
        Ledger.single, Ledger.push]
  case ofDag =>
    cases h
    cases kind <;> rfl
  case ofDagWithRegisters =>
    obtain ⟨_, qregs, cregs⟩ := of_ofDagWithRegisters h
    cases kind
    case quantum => exact qregs
    case classical => exact cregs

theorem filled_ledger (o : Origin) (kind : RegisterKind) : (o.ledger kind).Filled := by
  cases o
  case named => exact Ledger.filled_empty
  case ofSize => cases kind <;> exact Ledger.filled_single _
  case ofDag => cases kind <;> exact Ledger.filled_assign _
  case ofDagWithRegisters => cases kind <;> exact Ledger.filled_assign _

theorem filled_table (o : Origin) (ds : List Declaration) (kind : RegisterKind) : (o.table ds kind).Filled :=
  Ledger.of_declareAll (fun _ r h => h.declare r) (o.filled_ledger kind) kind ds

-- What is not named by the caller is a single register.
theorem registers_ledger (o : Origin) (kind : RegisterKind) : ∃ rs,
    (o.ledger kind).registers = rs.filter (0 < ·.size) ∧
      (Register.Distinct rs ↔ Register.Distinct (o.given kind)) := by
  cases o
  case named => exact ⟨[], rfl, Iff.rfl⟩
  case ofSize => cases kind <;> exact ⟨_, Ledger.registers_single _, by simp [given]⟩
  case ofDag => cases kind <;> exact ⟨_, rfl, by simp [given]⟩
  case ofDagWithRegisters => cases kind <;> exact ⟨_, rfl, Iff.rfl⟩

-- A name that is given twice stays, and so does its position in two places.
theorem exact_table_iff (o : Origin) (ds : List Declaration) (kind : RegisterKind) :
    let rs := (o.table ds kind).registers
    ((o.table ds kind).Exact (Register.total rs) (Register.locate rs) ↔ Register.Distinct (o.given kind)) ∧
      ((Register.allBits rs).Nodup ↔ Register.Distinct (o.given kind)) := by
  intro rs
  have filled := o.filled_table ds kind
  have nodup_of_exact := filled.nodup
  have ⟨first, made, distinct⟩ := o.registers_ledger kind
  have distinct_of_nodup : (Register.allBits rs).Nodup → Register.Distinct (o.given kind) := by
    intro nodup
    have kept : Register.allBits (first.filter (0 < ·.size)) <+: Register.allBits rs :=
      made ▸ Register.prefix_allBits (Ledger.prefix_declareAll _ kind ds)
    exact distinct.mp (Register.nodup_names_of_nodup_allBits (by simp) (kept.sublist.nodup nodup))
  have exact_of_distinct : Register.Distinct (o.given kind) →
      (o.table ds kind).Exact (Register.total rs) (Register.locate rs) := by
    intro given
    have names : ((o.ledger kind).registers.map Register.name).Nodup := made ▸ distinct.mpr given
    exact filled.exact (Ledger.nodup_names_declareAll names kind ds)
  exact ⟨⟨distinct_of_nodup ∘ nodup_of_exact, exact_of_distinct⟩,
    ⟨distinct_of_nodup, nodup_of_exact ∘ exact_of_distinct⟩⟩

theorem registers_build (h : o.build ds = .ok c) (kind : RegisterKind) :
    c.registers kind = (o.table ds kind).registers := by
  have ⟨_, made, eq⟩ := map_eq_ok_iff.mp h
  exact eq ▸ registers_declareAll (registers_circuit made kind) ds

theorem exact_build_iff (h : o.build ds = .ok c) (kind : RegisterKind) :
    let rs := c.registers kind
    (o.table ds kind).entries = (Register.allBits rs).zipIdx ∧
      ((o.table ds kind).Exact (Register.total rs) (Register.locate rs) ↔ Register.Distinct (o.given kind)) ∧
      ((Register.allBits rs).Nodup ↔ Register.Distinct (o.given kind)) := by
  rw [registers_build h kind]
  exact ⟨o.filled_table ds kind, o.exact_table_iff ds kind⟩

end Origin

-- A circuit that was made in some way, with declarations of which some may have been refused.
theorem lookup_exact_iff (h : o.build ds = .ok c) :
    ((o.table ds .quantum).entries = c.qubits.zipIdx ∧
      ((o.table ds .quantum).Exact c.numQubits c.qubit ↔ Register.Distinct (o.given .quantum)) ∧
      (c.qubits.Nodup ↔ Register.Distinct (o.given .quantum))) ∧
    ((o.table ds .classical).entries = c.clbits.zipIdx ∧
      ((o.table ds .classical).Exact c.numClbits c.clbit ↔ Register.Distinct (o.given .classical)) ∧
      (c.clbits.Nodup ↔ Register.Distinct (o.given .classical))) :=
  ⟨Origin.exact_build_iff h .quantum, Origin.exact_build_iff h .classical⟩

-- An empty register is dropped, one is added, and another is refused.
theorem lookup_exact_iff_mixed :
    let d := (Circuit.ofSize "wires" 2 1).dag
    let o : Origin := .ofDagWithRegisters "mixed" d [⟨"a", 0⟩, ⟨"b", 2⟩] [⟨"b", 1⟩]
    let ds : List Declaration := [⟨.quantum, ⟨"a", 1⟩⟩, ⟨.quantum, ⟨"b", 3⟩⟩, ⟨.classical, ⟨"a", 0⟩⟩]
    ∃ c, o.build ds = .ok c ∧ c.qregs = [⟨"b", 2⟩, ⟨"a", 1⟩] ∧ c.cregs = [⟨"b", 1⟩, ⟨"a", 0⟩] ∧
      (o.table ds .quantum).Exact c.numQubits c.qubit ∧
      (o.table ds .classical).Exact c.numClbits c.clbit := by
  intro d o ds
  have built : o.build ds = .ok _ := rfl
  have ⟨⟨_, quantum, _⟩, ⟨_, classical, _⟩⟩ := lookup_exact_iff built
  exact ⟨_, built, by decide, by decide, quantum.mpr (by decide), classical.mpr (by decide)⟩

-- Both qubits are the first one of `q`, and the second cannot be found.
theorem lookup_not_exact_repeated :
    let d := (Circuit.ofSize "wires" 2 0).dag
    let o : Origin := .ofDagWithRegisters "repeated" d [⟨"q", 1⟩, ⟨"q", 1⟩] []
    ∃ c, o.build [] = .ok c ∧ (o.table [] .quantum).entries = [(⟨"q", 0⟩, 0), (⟨"q", 0⟩, 1)] ∧
      c.numQubits = 2 ∧ c.qubit "q" 0 = .ok 0 ∧ ¬(o.table [] .quantum).Exact c.numQubits c.qubit := by
  refine ⟨_, rfl, by decide, by decide, rfl, fun exact => ?_⟩
  have found := (exact "q" 0 1).mpr (by decide)
  contradiction

end Circuit

end CircuitRouting
