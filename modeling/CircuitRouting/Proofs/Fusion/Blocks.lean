import CircuitRouting.Pass.Fusion
import CircuitRouting.Proofs.Trace
import Mathlib.Data.List.SplitBy

/-!
# Blocks of gates

The instructions along a wire are cut into the longest blocks of one-qubit gates and into what stands
between them. A block is fused into the gate that its product asks for, and what stands between two
blocks stays. Nothing is left to fuse after that.
-/

namespace CircuitRouting

-- Only the identity has no gate.
theorem Gate.exists_synthesize {u : Unitary} (basis : Basis) (h : u.isIdentity = false) :
    ∃ g, synthesize basis u = some g := by
  simp only [synthesize, h, Bool.false_eq_true, if_false]
  split
  case isTrue => exact ⟨_, rfl⟩
  case isFalse =>
    split
    case isTrue => exact ⟨_, rfl⟩
    case isFalse => exact ⟨_, rfl⟩

theorem Gate.synthesize_of_isIdentity {u : Unitary} (basis : Basis) (h : u.isIdentity) :
    synthesize basis u = none := by
  simp [synthesize, h]

theorem Unitary.isSome_ofGate? {g : Gate} (h : g.arity = 1) : (ofGate? g).isSome := by
  cases g <;> simp_all [ofGate?, Gate.arity]

namespace Instruction

variable {basis : Basis} {q : Nat} {i j : Instruction} {is block : List Instruction}
  {blocks : List (List Instruction)}

def matrix? (i : Instruction) : Option Unitary :=
  i.gate?.bind Unitary.ofGate?

theorem isSome_matrix? (proper : i.Proper) (one : i.isOneQubitGate) : i.matrix?.isSome := by
  obtain ⟨gate, len⟩ : i.isGate ∧ i.qubits.length = 1 := by simpa [isOneQubitGate] using one
  rw [isGate] at gate
  obtain ⟨g, found⟩ := Option.isSome_iff_exists.mp gate
  have action : i.action = .gate g := by
    rw [gate?] at found
    split at found
    case h_1 eq =>
      cases found
      exact eq
    case h_2 => contradiction
  have arity := proper.arity g.arity (by rw [action]; rfl)
  rw [len] at arity
  rw [matrix?, found, Option.bind_some]
  exact Unitary.isSome_ofGate? arity.symm

-- The product of gates, in the order in which they act.
def product (is : List Instruction) : Unitary :=
  (is.filterMap matrix?).foldl (fun u v => v * u) .identity

theorem product_concat {v : Unitary} (h : i.matrix? = some v) :
    product (is ++ [i]) = v * product is := by
  simp [product, List.filterMap_append, h]

-- Neighbours of one block.
def fuses (i j : Instruction) : Bool := i.isOneQubitGate && j.isOneQubitGate

-- What fusion makes of a block on a qubit.
def fuseBlock (basis : Basis) (q : Nat) (block : List Instruction) : List Instruction :=
  if block.all isOneQubitGate then
    if (product block).isIdentity then []
    else if block.length = 1 then block
    else ((Gate.synthesize basis (product block)).map (gate · [q])).toList
  else block

def fuseBlocks (basis : Basis) (q : Nat) (is : List Instruction) : List Instruction :=
  (is.splitBy fuses).flatMap (fuseBlock basis q)

-- A block of gates, or something else on its own.
inductive IsBlock : List Instruction → Prop
  | gates {block : List Instruction} : block ≠ [] → (∀ i ∈ block, i.isOneQubitGate) → IsBlock block
  | other {i : Instruction} : i.isOneQubitGate = false → IsBlock [i]

theorem isOneQubitGate_of_isChain (h : (i :: j :: is).IsChain fun i j => fuses i j) :
    ∀ k ∈ i :: j :: is, k.isOneQubitGate := by
  induction is generalizing i j
  case nil => simpa [fuses] using h
  case cons k is hi =>
    have ⟨here, later⟩ := List.isChain_cons_cons.mp h
    simp only [fuses, Bool.and_eq_true] at here
    exact List.forall_mem_cons.mpr ⟨here.1, hi later⟩

theorem isBlock_of_mem_splitBy (h : block ∈ is.splitBy fuses) : IsBlock block := by
  have ne := List.ne_nil_of_mem_splitBy h
  have chain := List.isChain_of_mem_splitBy h
  match block, ne, chain with
  | [i], ne, _ =>
    cases one : i.isOneQubitGate
    case false => exact .other one
    case true => exact .gates ne (by simpa using one)
  | i :: j :: is, ne, chain => exact .gates ne (isOneQubitGate_of_isChain chain)

theorem fuseBlock_other (h : i.isOneQubitGate = false) : fuseBlock basis q [i] = [i] := by
  simp [fuseBlock, h]

-- A block of gates gives a single gate, unless it is the identity.
theorem fuseBlock_gates (basis : Basis) (q : Nat) (gates : ∀ i ∈ block, i.isOneQubitGate) :
    (product block).isIdentity ∧ fuseBlock basis q block = [] ∨
      (product block).isIdentity = false ∧
        ∃ i, fuseBlock basis q block = [i] ∧ i.isOneQubitGate := by
  have all : block.all isOneQubitGate := List.all_eq_true.mpr gates
  rw [fuseBlock, if_pos all]
  cases identity : (product block).isIdentity
  case true => exact .inl ⟨rfl, rfl⟩
  case false =>
    refine .inr ⟨rfl, ?_⟩
    by_cases one : block.length = 1
    case pos =>
      have ⟨i, eq⟩ := List.length_eq_one_iff.mp one
      exact ⟨i, by simp [eq], gates i (by simp [eq])⟩
    case neg =>
      have ⟨g, found⟩ := Gate.exists_synthesize basis identity
      exact ⟨gate g [q], by simp [one, found], rfl⟩

-- A block with the nodes of a run that changes the circuit is fused.
theorem fuseBlock_of_isFusable (basis : Basis) (nodes : List Nat)
    (fusable : GateRun.isFusable ⟨q, nodes, product block⟩) (len : nodes.length = block.length)
    (gates : ∀ i ∈ block, i.isOneQubitGate) :
    fuseBlock basis q block = ((Gate.synthesize basis (product block)).map (gate · [q])).toList := by
  rw [fuseBlock, if_pos (List.all_eq_true.mpr gates)]
  split
  case isTrue identity => simp [Gate.synthesize_of_isIdentity basis identity]
  case isFalse identity =>
    rw [if_neg fun one => ?_]
    obtain ⟨n, rfl⟩ := List.length_eq_one_iff.mp (len.trans one)
    exact identity fusable

-- A block that vanishes has no gates next to it, and one that does not leaves a single gate.
theorem isChain_flatMap_fuseBlock (ok : ∀ block ∈ blocks, IsBlock block)
    (chain : blocks.IsChain fun a b => ∃ ha hb, fuses (a.getLast ha) (b.head hb) = false) :
    (blocks.flatMap (fuseBlock basis q)).IsChain fun i j => fuses i j = false := by
  induction blocks
  case nil => exact .nil
  case cons block blocks hi =>
    have ⟨here, later⟩ := List.forall_mem_cons.mp ok
    have rest := hi later chain.tail
    rw [List.flatMap_cons]
    cases here
    case other i no =>
      rw [fuseBlock_other no, List.singleton_append, List.isChain_cons]
      exact ⟨fun j _ => by simp [fuses, no], rest⟩
    case gates ne gates =>
      rcases fuseBlock_gates basis q gates with ⟨_, eq⟩ | ⟨_, i, eq, _⟩
      · rwa [eq]
      · rw [eq, List.singleton_append, List.isChain_cons]
        refine ⟨fun j hj => ?_, rest⟩
        cases blocks
        case nil => simp at hj
        case cons next blocks =>
          obtain ⟨_, hb, apart⟩ := (List.isChain_cons_cons.mp chain).1
          rw [fuses, gates _ (List.getLast_mem _), Bool.true_and] at apart
          cases (List.forall_mem_cons.mp later).1
          case gates gates => simp [gates _ (List.head_mem hb)] at apart
          case other k no =>
            rw [List.flatMap_cons, fuseBlock_other no] at hj
            cases hj
            simp [fuses, no]

theorem isChain_fuseBlocks (basis : Basis) (q : Nat) (is : List Instruction) :
    (fuseBlocks basis q is).IsChain fun i j => fuses i j = false :=
  isChain_flatMap_fuseBlock (fun _ => isBlock_of_mem_splitBy) (List.isChain_getLast_head_splitBy fuses is)

theorem mem_qubits_of_mem_fuseBlock (on : ∀ i ∈ block, q ∈ i.qubits)
    (hj : j ∈ fuseBlock basis q block) : q ∈ j.qubits := by
  rw [fuseBlock] at hj
  split at hj
  case isFalse => exact on j hj
  case isTrue =>
    split at hj
    case isTrue => simp at hj
    case isFalse =>
      split at hj
      case isTrue => exact on j hj
      case isFalse =>
        simp only [Option.mem_toList, Option.map_eq_some_iff] at hj
        have ⟨g, _, eq⟩ := hj
        simp [← eq, gate]

-- Gates without anything between them are one block.
theorem splitBy_of_gates (gates : ∀ i ∈ is, i.isOneQubitGate) (ne : is ≠ []) :
    is.splitBy fuses = [is] :=
  List.splitBy_of_isChain ne <| List.Pairwise.isChain <|
    List.pairwise_of_forall_mem_list fun i hi j hj => by simp [fuses, gates i hi, gates j hj]

-- What is no gate stands between two blocks.
theorem splitBy_of_other (other : i.isOneQubitGate = false) (l r : List Instruction) :
    (l ++ i :: r).splitBy fuses = l.splitBy fuses ++ [i] :: r.splitBy fuses := by
  have after : ([i] ++ r).splitBy fuses = [i].splitBy fuses ++ r.splitBy fuses :=
    List.splitBy_append fun j hj k _ => by
      cases hj
      simp [fuses, other]
  have single : [i].splitBy fuses = [[i]] := rfl
  rw [List.splitBy_append_cons _ fun j _ => by simp [fuses, other], ← List.singleton_append, after, single,
    List.singleton_append]

theorem fuseBlocks_of_gates (gates : ∀ i ∈ is, i.isOneQubitGate) (ne : is ≠ []) :
    fuseBlocks basis q is = fuseBlock basis q is := by
  rw [fuseBlocks, splitBy_of_gates gates ne, List.flatMap_singleton]

theorem fuseBlocks_of_other (other : i.isOneQubitGate = false) (l r : List Instruction) :
    fuseBlocks basis q (l ++ i :: r) = fuseBlocks basis q l ++ i :: fuseBlocks basis q r := by
  rw [fuseBlocks, splitBy_of_other other, List.flatMap_append, List.flatMap_cons, fuseBlock_other other]
  rfl

end Instruction

end CircuitRouting
