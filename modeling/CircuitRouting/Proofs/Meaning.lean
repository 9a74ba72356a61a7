import CircuitRouting.Proofs.Layout
import CircuitRouting.Proofs.Pass.Direction
import CircuitRouting.Proofs.Pass.Fusion
import CircuitRouting.Proofs.Routing.Transcript
import Mathlib.Algebra.BigOperators.Group.List.Basic

/-!
# The meaning of a program

Instructions are read as elements of a monoid, and a program as their product, in which an earlier
factor acts first. Under a few laws the meaning of a program does not change when it is expanded or
oriented, and swaps can be moved behind the instructions that they relabel. It does not change either
when blocks of gates are fused, if what is written for each of these blocks is exact.
-/

namespace CircuitRouting

namespace Instruction

-- The instruction with every qubit passed through a function.
def relabel (f : Nat → Nat) (i : Instruction) : Instruction :=
  { i with qubits := i.qubits.map f }

end Instruction

section Laws

variable {M : Type*} [Monoid M]

def meaning (I : Instruction → M) (is : List Instruction) : M :=
  (is.map I).prod

-- What an interpretation has to respect: the independence of what is apart, the expansion of gates,
-- and the ways in which swaps and turns are written.
structure Lawful (basis : Basis) (I : Instruction → M) : Prop where
  commute : ∀ i j, i.Apart j → I i * I j = I j * I i
  unroll : ∀ g qs, (Instruction.gate g qs).Proper →
    I (.gate g qs) = meaning I (Instruction.unroll basis g qs)
  cancel : ∀ a b, a ≠ b → I (.cx a b) * I (.cx a b) = 1
  exchange : ∀ i a b, a ≠ b →
    meaning I (Instruction.swapAsCx a b) * I (i.relabel (Layout.exchange a b)) =
      I i * meaning I (Instruction.swapAsCx a b)
  reverse : ∀ a b, a ≠ b →
    I (.cx a b) = meaning I (Instruction.reversedCx (.hadamard basis) a b)

-- What fusion writes for the blocks of a graph means what the blocks mean. This is asked of one graph
-- and is not a law, since products are rounded: for other blocks it may fail.
def Dag.FusesExactly (basis : Basis) (I : Instruction → M) (d : Dag) : Prop :=
  ∀ q, ∀ block ∈ (d.wireInstructions (.qubit q)).splitBy Instruction.fuses,
    meaning I (Instruction.fuseBlock basis q block) = meaning I block

variable {basis : Basis} {I : Instruction → M} {i j : Instruction} {is js : List Instruction}

@[simp]
theorem meaning_nil : meaning I [] = 1 :=
  rfl

@[simp]
theorem meaning_cons : meaning I (i :: is) = I i * meaning I is := by
  simp [meaning]

@[simp]
theorem meaning_append : meaning I (is ++ js) = meaning I is * meaning I js := by
  simp [meaning]

theorem meaning_flatMap {f : Instruction → List Instruction} (h : ∀ i ∈ is, meaning I (f i) = I i) :
    meaning I (is.flatMap f) = meaning I is := by
  induction is
  case nil => rfl
  case cons i is hi =>
    have ⟨here, later⟩ := List.forall_mem_cons.mp h
    rw [List.flatMap_cons, meaning_append, here, hi later, meaning_cons]

-- There is nothing to be exact about where no gate can be fused.
theorem Dag.fusesExactly_of_forall {d : Dag}
    (h : ∀ n i, d.instruction? n = some i → i.isOneQubitGate = false) : d.FusesExactly basis I := by
  intro q block mem
  cases Instruction.isBlock_of_mem_splitBy mem
  case other no => rw [Instruction.fuseBlock_other no]
  case gates ne gates =>
    obtain ⟨i, hi⟩ := List.exists_mem_of_ne_nil block ne
    have on := List.mem_flatten_of_mem mem hi
    rw [List.flatten_splitBy] at on
    obtain ⟨n, _, found⟩ := List.mem_filterMap.mp on
    exact absurd (gates i hi) (by simp [h n i found])

namespace Lawful

variable (laws : Lawful basis I)
include laws

theorem reorders (h : Reorders is js) : meaning I is = meaning I js := by
  induction h
  case refl => rfl
  case swap i j l r apart =>
    have comm := laws.commute i j apart
    simp only [meaning_append, meaning_cons]
    rw [← mul_assoc (I i), comm, mul_assoc]
  case trans hi hi' => exact hi.trans hi'

theorem simplifies {d : Dag} (exact : d.FusesExactly basis I) (h : Simplifies (d.Fused basis) is js) :
    meaning I is = meaning I js := by
  induction h
  case reorder h => exact laws.reorders h
  case cancel a b l r ne =>
    simp only [meaning_append, meaning_cons]
    rw [← mul_assoc (I (.cx a b)), laws.cancel a b ne, one_mul]
  case rewrite l r fused =>
    obtain ⟨q, block, rfl⟩ := fused
    simp only [meaning_append, exact q _ block]
  case trans hi hi' => exact hi.trans hi'

theorem expand (plain : i.Plain) (proper : i.Proper) : meaning I (i.expand basis) = I i := by
  rw [Instruction.expand]
  split
  case h_2 => simp
  case h_1 g action =>
    split
    case isTrue => simp
    case isFalse =>
      have eq := plain.eq_gate action rfl
      conv => rhs; rw [eq]
      exact (laws.unroll g i.qubits (eq ▸ proper)).symm

theorem turned (m : CouplingMap) (plain : i.Plain) (proper : i.Proper) :
    meaning I (i.turned m (.hadamard basis)) = I i := by
  rw [Instruction.turned]
  split
  case isFalse => simp
  case isTrue h =>
    obtain ⟨action, qubits⟩ := Instruction.qubits_of_isCx proper h.1
    have ne : i.control ≠ i.target := by simpa [qubits] using proper.nodup
    conv => rhs; rw [plain.eq_gate action qubits]
    exact (laws.reverse _ _ ne).symm

end Lawful

end Laws

namespace Instruction

variable {basis : Basis} {lay : Layout} {i i' j j' : Instruction} {is js : List Instruction}

theorem Relabelled.right_unique (h : i.Relabelled lay j) (h' : i.Relabelled lay j') : j = j' := by
  have qubits : j.qubits = j'.qubits := by
    refine List.right_unique_forall₂' (fun q p p' e e' => ?_) h.qubits h'.qubits
    exact Option.some.inj (e.symm.trans e')
  have action := h.action.trans h'.action.symm
  have clbits := h.clbits.trans h'.clbits.symm
  cases j
  cases j'
  simp_all

theorem Relabelled.plain (h : i.Relabelled lay j) (plain : i.Plain) : j.Plain := by
  simpa [Plain, isMeasure, h.action, h.clbits] using plain

-- A layout keeps apart what is apart.
theorem Relabelled.apart (h : i.Relabelled lay i') (h' : j.Relabelled lay j') (apart : i.Apart j) :
    i'.Apart j' := by
  intro w hi hj
  simp only [wires, List.mem_append, List.mem_map] at hi hj
  rcases hi with ⟨p, hp, rfl⟩ | ⟨b, hb, rfl⟩
  · obtain ⟨p', hp', eq⟩ := hj.resolve_right (by simp)
    cases eq
    obtain ⟨q, hq, eq⟩ := exists_left_of_forall₂ h.qubits hp
    obtain ⟨q', hq', eq'⟩ := exists_left_of_forall₂ h'.qubits hp'
    cases Layout.physical?_injective eq eq'
    exact apart (.qubit q) (by simp [wires, hq]) (by simp [wires, hq'])
  · obtain ⟨b', hb', eq⟩ := hj.resolve_left (by simp)
    cases eq
    rw [h.clbits] at hb
    rw [h'.clbits] at hb'
    exact apart (.clbit b) (by simp [wires, hb]) (by simp [wires, hb'])

end Instruction

-- A new order of a program is one of the relabelled program.
theorem Reorders.relabelled {lay : Layout} {is is' js' : List Instruction} (h : Reorders is is')
    (rel : List.Forall₂ (·.Relabelled lay ·) is' js') :
    ∃ js, List.Forall₂ (·.Relabelled lay ·) is js ∧ Reorders js js' := by
  induction h generalizing js'
  case refl => exact ⟨js', rel, .refl _⟩
  case swap i j l r apart =>
    have ⟨l', rest, eq, left, right⟩ := exists_append_of_forall₂ rel
    subst eq
    cases right
    case cons j' _ hj right =>
      cases right
      case cons i' r' hi right =>
        exact ⟨l' ++ i' :: j' :: r', List.rel_append left (.cons hi (.cons hj right)),
          .swap l' r' (hi.apart hj apart)⟩
  case trans hi hi' =>
    have ⟨js₁, rel₁, reorder₁⟩ := hi' rel
    have ⟨js, rel, reorder⟩ := hi rel₁
    exact ⟨js, rel, reorder.trans reorder₁⟩

namespace Instruction

variable {basis : Basis} {lay : Layout} {i j : Instruction}

theorem relabelled_gate {g : Gate} {qs ps : List Nat}
    (h : List.Forall₂ (fun q p => lay.physical? q = some p) qs ps) :
    (gate g qs).Relabelled lay (gate g ps) :=
  ⟨rfl, h, rfl⟩

theorem relabelled_unroll_one {g : Gate} {a a' : Nat} (one : g.arity = 1)
    (ha : lay.physical? a = some a') :
    List.Forall₂ (·.Relabelled lay ·) (unroll basis g [a]) (unroll basis g [a']) := by
  have single : ∀ g, (gate g [a]).Relabelled lay (gate g [a']) := fun g =>
    relabelled_gate (.cons ha .nil)
  cases g <;> simp [Gate.arity] at one
  case id =>
    simp only [unroll]
    split
    case isTrue => exact .cons (single _) .nil
    case isFalse => exact .nil
  all_goals exact .cons (single _) .nil

theorem relabelled_unroll_two {g : Gate} {a b a' b' : Nat} (two : g.arity = 2)
    (ha : lay.physical? a = some a') (hb : lay.physical? b = some b') :
    List.Forall₂ (·.Relabelled lay ·) (unroll basis g [a, b]) (unroll basis g [a', b']) := by
  have forth : (cx a b).Relabelled lay (cx a' b') := relabelled_gate (.cons ha (.cons hb .nil))
  have back : (cx b a).Relabelled lay (cx b' a') := relabelled_gate (.cons hb (.cons ha .nil))
  have turn : ∀ g, (gate g [b]).Relabelled lay (gate g [b']) := fun g =>
    relabelled_gate (.cons hb .nil)
  cases g <;> simp [Gate.arity] at two
  case cx => exact .cons forth .nil
  case cz => exact .cons (turn _) (.cons forth (.cons (turn _) .nil))
  case swap => exact .cons forth (.cons back (.cons forth .nil))

-- The expansion of a relabelled instruction is the relabelled expansion.
theorem Relabelled.expand (h : i.Relabelled lay j) (proper : i.Proper) :
    List.Forall₂ (·.Relabelled lay ·) (i.expand basis) (j.expand basis) := by
  rw [Instruction.expand, Instruction.expand, h.action]
  split
  case h_2 => exact .cons h .nil
  case h_1 g action =>
    split
    case isTrue => exact .cons h .nil
    case isFalse =>
      have len : i.qubits.length = g.arity := proper.arity _ (by rw [action]; rfl)
      have arity : g.arity = 1 ∨ g.arity = 2 := by cases g <;> simp [Gate.arity]
      have placed := h.qubits
      cases arity
      case inl one =>
        obtain ⟨a, eq⟩ := List.length_eq_one_iff.mp (len.trans one)
        rw [eq, List.forall₂_cons_left_iff] at placed
        obtain ⟨a', _, ha, rest, eq'⟩ := placed
        cases rest
        exact eq ▸ eq' ▸ relabelled_unroll_one one ha
      case inr two =>
        obtain ⟨a, b, eq⟩ := List.length_eq_two.mp (len.trans two)
        rw [eq, List.forall₂_cons_left_iff] at placed
        obtain ⟨a', _, ha, rest, eq'⟩ := placed
        obtain ⟨b', _, hb, rest, rfl⟩ := List.forall₂_cons_left_iff.mp rest
        cases rest
        exact eq ▸ eq' ▸ relabelled_unroll_two two ha hb

end Instruction

end CircuitRouting
