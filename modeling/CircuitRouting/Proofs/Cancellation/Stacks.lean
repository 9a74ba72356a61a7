import CircuitRouting.Instruction
import Mathlib.Data.List.Basic

/-!
# Stacks of instructions

A program, read from its end, puts each instruction on the stacks of its qubits. A controlled NOT that
meets itself on top of both its stacks takes it off instead. What is left depends on the order on each
qubit only, and does not change if two controlled NOTs that are next to each other on both qubits are
dropped. A program without such a pair is left as it is: so the order in which pairs are dropped does
not matter.
-/

namespace CircuitRouting

-- The instructions share no qubit.
def Instruction.Separate (i j : Instruction) : Prop :=
  ∀ q ∈ i.qubits, q ∉ j.qubits

theorem Instruction.Separate.symm {i j : Instruction} (h : i.Separate j) : j.Separate i :=
  fun q hj hi => h q hi hj

-- The instructions on each qubit, the first on top.
def Stacks : Type :=
  Nat → List Instruction

namespace Stacks

variable {i j : Instruction} {is js l r : List Instruction} {s s' : Stacks} {c q t : Nat}

@[ext]
theorem ext (h : ∀ q, s q = s' q) : s = s' :=
  funext h

def empty : Stacks :=
  fun _ => []

def put (i : Instruction) (s : Stacks) : Stacks :=
  fun q => if q ∈ i.qubits then i :: s q else s q

def pop (i : Instruction) (s : Stacks) : Stacks :=
  fun q => if q ∈ i.qubits then (s q).tail else s q

-- A controlled NOT is on top of both its stacks.
def Meets (i : Instruction) (s : Stacks) : Prop :=
  ∃ c t, c ≠ t ∧ i = .cx c t ∧ ∀ q ∈ i.qubits, (s q).head? = some i

open Classical in
noncomputable def push (i : Instruction) (s : Stacks) : Stacks :=
  if Meets i s then pop i s else put i s

theorem put_of_notMem (h : q ∉ i.qubits) : put i s q = s q := by
  simp [put, h]

theorem pop_of_notMem (h : q ∉ i.qubits) : pop i s q = s q := by
  simp [pop, h]

theorem push_of_notMem (h : q ∉ i.qubits) : push i s q = s q := by
  rw [push]
  split
  case isTrue => exact pop_of_notMem h
  case isFalse => exact put_of_notMem h

theorem pop_put : pop i (put i s) = s := by
  ext1 q
  by_cases hq : q ∈ i.qubits
  case pos => simp [pop, put, hq]
  case neg => rw [pop_of_notMem hq, put_of_notMem hq]

theorem put_pop (h : ∀ q ∈ i.qubits, (s q).head? = some i) : put i (pop i s) = s := by
  ext1 q
  by_cases hq : q ∈ i.qubits
  case pos => simpa [pop, put, hq] using List.cons_head?_tail (h q hq)
  case neg => rw [put_of_notMem hq, pop_of_notMem hq]

section Separate

theorem Meets.congr (same : ∀ q ∈ i.qubits, s q = s' q) (h : Meets i s) : Meets i s' := by
  have ⟨c, t, ne, cx, top⟩ := h
  exact ⟨c, t, ne, cx, fun q hq => same q hq ▸ top q hq⟩

theorem meets_congr (same : ∀ q ∈ i.qubits, s q = s' q) : Meets i s ↔ Meets i s' :=
  ⟨.congr same, .congr fun q hq => (same q hq).symm⟩

theorem push_congr (same : ∀ q ∈ i.qubits, s q = s' q) (hq : q ∈ i.qubits) :
    push i s q = push i s' q := by
  by_cases meets : Meets i s
  case pos => simp [push, meets, (meets_congr same).mp meets, pop, hq, same q hq]
  case neg => simp [push, meets, mt (meets_congr same).mpr meets, put, hq, same q hq]

theorem pop_put_of_separate (h : i.Separate j) : pop i (put j s) = put j (pop i s) := by
  ext1 q
  by_cases hq : q ∈ i.qubits
  case pos => simp [pop, put, hq, h q hq]
  case neg => simp [pop, put, hq]

-- Two instructions that share a qubit are not both on top of its stack.
theorem separate_of_top (top : ∀ q ∈ i.qubits, (put j s q).head? = some i) (ne : j ≠ i) :
    i.Separate j := by
  intro q hi hj
  have same := top q hi
  simp only [put, hj, if_true, List.head?_cons, Option.some.injEq] at same
  exact ne same

theorem push_comm (h : i.Separate j) : push i (push j s) = push j (push i s) := by
  ext1 q
  by_cases hi : q ∈ i.qubits
  case pos =>
    rw [push_of_notMem (h q hi), push_congr (fun p hp => push_of_notMem (h p hp)) hi]
  case neg =>
    by_cases hj : q ∈ j.qubits
    case pos =>
      rw [push_of_notMem hi]
      exact (push_congr (fun p hp => push_of_notMem (h.symm p hp)) hj).symm
    case neg => simp only [push_of_notMem hi, push_of_notMem hj]

theorem push_foldr (h : ∀ j ∈ l, i.Separate j) (s : Stacks) :
    push i (l.foldr push s) = l.foldr push (push i s) := by
  induction l
  case nil => rfl
  case cons j l hi =>
    have ⟨here, later⟩ := List.forall_mem_cons.mp h
    rw [List.foldr_cons, List.foldr_cons, push_comm here, hi later]

end Separate

section Clean

-- Stacks that can be put together without a controlled NOT meeting itself.
inductive Clean : Stacks → Prop
  | empty : Clean .empty
  | put (i : Instruction) {s : Stacks} : Clean s → ¬Meets i s → Clean (put i s)

theorem Clean.pop (h : Clean s) (meets : Meets i s) : Clean (pop i s) ∧ ¬Meets i (pop i s) := by
  induction h
  case empty =>
    have ⟨c, t, _, cx, top⟩ := meets
    have := top c (by simp [cx, Instruction.cx, Instruction.gate])
    simp [Stacks.empty] at this
  case put j s clean rest hi =>
    by_cases same : j = i
    case pos =>
      subst same
      rw [pop_put]
      exact ⟨clean, rest⟩
    case neg =>
      -- What is on top of the stacks of `i` is `i`, so that `j` was not put there.
      have ⟨_, _, _, _, top⟩ := meets
      have separate := separate_of_top top same
      have ⟨clean', rest'⟩ := hi (meets.congr fun q hq => put_of_notMem (separate q hq))
      rw [pop_put_of_separate separate]
      refine ⟨.put j clean' fun again => rest (again.congr fun q hq => ?_), fun again => ?_⟩
      case refine_1 => exact pop_of_notMem (separate.symm q hq)
      case refine_2 => exact rest' (again.congr fun q hq => put_of_notMem (separate q hq))

theorem Clean.push (h : Clean s) (i : Instruction) : Clean (push i s) := by
  rw [Stacks.push]
  split
  case isTrue meets => exact (h.pop meets).1
  case isFalse free => exact .put i h free

-- A controlled NOT undoes itself.
theorem Clean.push_push (h : Clean s) (ne : c ≠ t) :
    Stacks.push (.cx c t) (Stacks.push (.cx c t) s) = s := by
  by_cases meets : Meets (.cx c t) s
  case pos =>
    have ⟨_, _, _, _, top⟩ := meets
    rw [Stacks.push, Stacks.push, if_pos meets, if_neg (h.pop meets).2, put_pop top]
  case neg =>
    have meets' : Meets (.cx c t) (Stacks.put (.cx c t) s) :=
      ⟨c, t, ne, rfl, fun q hq => by simp [Stacks.put, hq]⟩
    rw [Stacks.push, Stacks.push, if_neg meets, if_pos meets', pop_put]

end Clean

-- All instructions of a program on the stacks of their qubits.
def ofProgram (is : List Instruction) : Stacks :=
  is.foldr put empty

-- What is left of a program on the stacks.
noncomputable def reduced (is : List Instruction) : Stacks :=
  is.foldr push empty

theorem ofProgram_apply (is : List Instruction) (q : Nat) :
    ofProgram is q = is.filter (q ∈ ·.qubits) := by
  induction is
  case nil => rfl
  case cons i is hi =>
    by_cases hq : q ∈ i.qubits
    case pos => simpa [ofProgram, put, hq] using hi
    case neg => simpa [ofProgram, put, hq] using hi

theorem ofProgram_cons : ofProgram (i :: is) = put i (ofProgram is) :=
  rfl

theorem reduced_cons : reduced (i :: is) = push i (reduced is) :=
  rfl

theorem reduced_append : reduced (l ++ r) = l.foldr push (reduced r) :=
  List.foldr_append

theorem clean_reduced (is : List Instruction) : Clean (reduced is) := by
  induction is
  case nil => exact .empty
  case cons i is hi => exact hi.push i

-- An instruction on top of all its stacks comes after instructions that are separate from it only.
theorem exists_first (used : i.qubits ≠ [])
    (top : ∀ q ∈ i.qubits, (ofProgram js q).head? = some i) :
    ∃ l r, js = l ++ i :: r ∧ ∀ j ∈ l, i.Separate j := by
  induction js
  case nil =>
    have ⟨q, hq⟩ := List.exists_mem_of_ne_nil _ used
    simpa [ofProgram, empty] using top q hq
  case cons j js hi =>
    by_cases same : j = i
    case pos => exact ⟨[], js, by simp [same], by simp⟩
    case neg =>
      have separate := separate_of_top top same
      have ⟨l, r, eq, apart⟩ := hi fun q hq => by
        rw [← top q hq, ofProgram_cons, put_of_notMem (separate q hq)]
      exact ⟨j :: l, r, by simp [eq], List.forall_mem_cons.mpr ⟨separate, apart⟩⟩

theorem ofProgram_of_separate (apart : ∀ j ∈ l, i.Separate j) :
    ofProgram (l ++ i :: r) = put i (ofProgram (l ++ r)) := by
  ext1 q
  simp only [put, ofProgram_apply, List.filter_append]
  by_cases hq : q ∈ i.qubits
  case pos =>
    have none : l.filter (q ∈ ·.qubits) = [] := by
      simpa using fun j hj => apart j hj q hq
    simp [hq, none]
  case neg => simp [hq]

theorem reduced_of_separate (apart : ∀ j ∈ l, i.Separate j) :
    reduced (l ++ i :: r) = push i (reduced (l ++ r)) := by
  rw [reduced_append, reduced_append, push_foldr apart]
  rfl

-- An instruction on no qubit is on no stack.
theorem put_of_unused (unused : i.qubits = []) : put i s = s :=
  ext fun q => put_of_notMem (by simp [unused])

theorem push_of_unused (unused : i.qubits = []) : push i s = s :=
  ext fun q => push_of_notMem (by simp [unused])

theorem reduced_of_empty (none : ofProgram js = empty) : reduced js = empty := by
  induction js
  case nil => rfl
  case cons j js hi =>
    have unused : j.qubits = [] := by
      refine List.eq_nil_iff_forall_not_mem.mpr fun q hq => ?_
      have := congrFun none q
      simp [ofProgram_cons, put, hq, empty] at this
    rw [ofProgram_cons, put_of_unused unused] at none
    rw [reduced_cons, push_of_unused unused, hi none]

-- The stacks that are left depend on the order on each qubit only.
theorem reduced_congr (same : ofProgram is = ofProgram js) : reduced is = reduced js := by
  induction is generalizing js
  case nil => exact (reduced_of_empty same.symm).symm
  case cons i is hi =>
    rw [ofProgram_cons] at same
    by_cases unused : i.qubits = []
    case pos =>
      rw [put_of_unused unused] at same
      rw [reduced_cons, push_of_unused unused, hi same]
    case neg =>
      have top : ∀ q ∈ i.qubits, (ofProgram js q).head? = some i := by
        intro q hq
        simp [← same, put, hq]
      have ⟨l, r, eq, apart⟩ := exists_first unused top
      rw [eq, ofProgram_of_separate apart] at same
      have rest := congrArg (pop i) same
      rw [pop_put, pop_put] at rest
      rw [eq, reduced_cons, hi rest, reduced_of_separate apart]

end Stacks

open Stacks

-- Two controlled NOTs with nothing between them on their qubits are dropped.
inductive Drops : List Instruction → List Instruction → Prop
  | intro {c t : Nat} (l mid r : List Instruction) : c ≠ t →
    (∀ j ∈ mid, (Instruction.cx c t).Separate j) →
    Drops (l ++ .cx c t :: (mid ++ .cx c t :: r)) (l ++ (mid ++ r))

theorem Drops.reduced_eq {is js : List Instruction} (h : Drops is js) : reduced is = reduced js := by
  cases h
  case intro c t l mid r ne apart =>
    rw [reduced_append, reduced_append, reduced_cons, reduced_of_separate apart,
      (clean_reduced _).push_push ne]

-- A program with nothing to drop is left as it is.
theorem reduced_eq_ofProgram {is : List Instruction} (stuck : ∀ js, ¬Drops is js) :
    reduced is = ofProgram is := by
  induction is
  case nil => rfl
  case cons i is hi =>
    have rest := hi fun js drops => by
      cases drops
      case intro c t l mid r ne apart => exact stuck _ (.intro (i :: l) mid r ne apart)
    rw [reduced_cons, ofProgram_cons, rest, push, if_neg]
    rintro ⟨c, t, ne, rfl, top⟩
    have ⟨l, r, eq, apart⟩ := exists_first (by simp [Instruction.cx, Instruction.gate]) top
    rw [eq] at stuck
    exact stuck _ (.intro [] l r ne apart)

end CircuitRouting
