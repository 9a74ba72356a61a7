import CircuitRouting.Proofs.Meaning
import Mathlib.Algebra.Group.End
import Mathlib.Algebra.Group.Opposite

/-!
# Following tokens

Every qubit carries a token. A gate on two qubits exchanges their tokens, some gates turn tokens over,
and a measurement records the token that it finds. This is a lawful interpretation in every basis: it
tells programs apart by what their measurements record, and by what is left on the qubits.
-/

namespace CircuitRouting

-- What a token is marked with, and whether it has been turned over.
abbrev Token := Nat × Bool

@[ext]
structure Tokens where
  token : Nat → Token
  record : Nat → Option Token

namespace Tokens

variable {a b q : Nat} {s : Tokens}

def turn (a : Nat) (s : Tokens) : Tokens :=
  { s with token := fun q => ((s.token q).1, (s.token q).2 ^^ decide (q = a)) }

def exchange (a b : Nat) (s : Tokens) : Tokens :=
  { s with token := fun q => s.token (Layout.exchange a b q) }

theorem exchange_comm (a b : Nat) (s : Tokens) : s.exchange b a = s.exchange a b := by
  ext q : 2
  case token => grind [exchange, Layout.exchange]
  case record => rfl

@[simp]
theorem turn_turn (a : Nat) (s : Tokens) : (s.turn a).turn a = s := by
  simp [turn]

-- A token that is turned over before it changes places could as well be turned over afterwards.
theorem turn_exchange (a b : Nat) (s : Tokens) : (s.turn a).exchange a b = (s.exchange a b).turn b := by
  have moved : ∀ q, Layout.exchange a b q = a ↔ q = b := by grind [Layout.exchange]
  simp [turn, exchange, moved]

@[simp]
theorem exchange_exchange (a b : Nat) (s : Tokens) : (s.exchange a b).exchange a b = s := by
  simp [exchange]

end Tokens

-- The gates that turn tokens over.
def Gate.turns : Gate → Bool
  | id | cx | swap => false
  | _ => true

namespace Gate

variable {g : Gate}

theorem turns_native (basis : Basis) (g : Gate) : (g.native basis).turns = g.turns := by
  cases g
  case u1 | u2 =>
    rw [native]
    split <;> rfl
  all_goals rfl

theorem turns_rotation (g : Gate) : g.rotation.turns = g.turns := by
  cases g <;> rfl

theorem turns_hadamard (basis : Basis) : (hadamard basis).turns :=
  turns_native basis _

end Gate

namespace Instruction

variable {basis : Basis} {i j : Instruction} {g g' : Gate} {qs : List Nat} {a b q : Nat} {s : Tokens}

-- Where the token comes from that an instruction brings to a qubit.
def origin (i : Instruction) (q : Nat) : Nat :=
  match i.pair? with
  | some x => Layout.exchange x.1 x.2 q
  | none => q

def turns (i : Instruction) (q : Nat) : Bool :=
  i.gate?.any Gate.turns && decide (q ∈ i.qubits)

-- The qubit of which a classical bit records the token.
def recorded? (i : Instruction) (b : Nat) : Option Nat :=
  if i.isMeasure ∧ b ∈ i.clbits then i.qubits.head? else none

def follow (i : Instruction) (s : Tokens) : Tokens where
  token q := ((s.token (i.origin q)).1, (s.token (i.origin q)).2 ^^ i.turns q)
  record b := ((i.recorded? b).map s.token).or (s.record b)

theorem origin_of_notMem (h : q ∉ i.qubits) : i.origin q = q := by
  rw [origin]
  split
  case h_1 x pair =>
    simp only [qubits_of_pair? pair, List.mem_cons, List.not_mem_nil, or_false, not_or] at h
    exact Layout.exchange_of_ne h.1 h.2
  case h_2 => rfl

theorem origin_mem (h : q ∈ i.qubits) : i.origin q ∈ i.qubits := by
  rw [origin]
  split
  case h_1 x pair =>
    simp only [qubits_of_pair? pair, List.mem_cons, List.not_mem_nil, or_false] at h ⊢
    rcases h with rfl | rfl
    · exact .inr Layout.exchange_left
    · exact .inl Layout.exchange_right
  case h_2 => exact h

theorem follow_token (i : Instruction) (s : Tokens) (q : Nat) :
    (i.follow s).token q = ((s.token (i.origin q)).1, (s.token (i.origin q)).2 ^^ i.turns q) :=
  rfl

theorem follow_record (i : Instruction) (s : Tokens) (b : Nat) :
    (i.follow s).record b = ((i.recorded? b).map s.token).or (s.record b) :=
  rfl

theorem follow_token_of_notMem (h : q ∉ i.qubits) (s : Tokens) : (i.follow s).token q = s.token q := by
  simp [follow, origin_of_notMem h, turns, h]

theorem of_recorded? (h : i.recorded? b = some q) : b ∈ i.clbits ∧ q ∈ i.qubits := by
  rw [recorded?] at h
  split at h
  case isTrue read => exact ⟨read.2, List.mem_of_head? h⟩
  case isFalse => contradiction

-- What is apart leaves the operands of the other alone.
theorem follow_comm (h : i.Apart j) (s : Tokens) : j.follow (i.follow s) = i.follow (j.follow s) := by
  have qubits : ∀ q, q ∈ i.qubits → q ∉ j.qubits := fun q hi hj =>
    h (.qubit q) (by simp [wires, hi]) (by simp [wires, hj])
  have clbits : ∀ b, b ∈ i.clbits → b ∉ j.clbits := fun b hi hj =>
    h (.clbit b) (by simp [wires, hi]) (by simp [wires, hj])
  ext q : 2
  case token =>
    by_cases hi : q ∈ i.qubits
    case pos =>
      rw [follow_token_of_notMem (qubits q hi), follow_token, follow_token,
        follow_token_of_notMem (qubits _ (origin_mem hi))]
    case neg =>
      have off : j.origin q ∉ i.qubits := by
        by_cases hj : q ∈ j.qubits
        case pos => exact fun mem => qubits _ mem (origin_mem hj)
        case neg => rwa [origin_of_notMem hj]
      rw [follow_token_of_notMem hi, follow_token, follow_token_of_notMem off, ← follow_token]
  case record =>
    rw [follow_record, follow_record, follow_record, follow_record]
    cases hi : i.recorded? q
    case none =>
      cases hj : j.recorded? q
      case none => simp
      case some p =>
        have off : p ∉ i.qubits := fun mem => qubits p mem (of_recorded? hj).2
        simp [follow_token_of_notMem off]
    case some p =>
      cases hj : j.recorded? q
      case none => simp [follow_token_of_notMem (qubits p (of_recorded? hi).2)]
      case some => exact absurd (of_recorded? hj).1 (clbits q (of_recorded? hi).1)

section Relabel

variable {f : Nat → Nat} (inv : Function.Involutive f)
include inv

omit inv in
theorem pair?_relabel (f : Nat → Nat) (i : Instruction) :
    (i.relabel f).pair? = i.pair?.map (Prod.map f f) := by
  obtain ⟨action, qubits, _⟩ := i
  cases action
  case gate g =>
    match qubits with
    | [] | [_] | [_, _] | _ :: _ :: _ :: _ => rfl
  all_goals rfl

theorem origin_relabel (i : Instruction) (q : Nat) : f ((i.relabel f).origin q) = i.origin (f q) := by
  rw [origin, origin, pair?_relabel]
  cases i.pair?
  case none => rfl
  case some x =>
    have swap : ∀ a, q = f a ↔ f q = a := fun a => eq_comm.trans (inv.eq_iff.trans eq_comm)
    simp only [Option.map_some, Prod.map_fst, Prod.map_snd, Layout.exchange, swap]
    split
    case isTrue => exact inv x.2
    case isFalse =>
      split
      case isTrue => exact inv x.1
      case isFalse => rfl

theorem turns_relabel (i : Instruction) (q : Nat) : (i.relabel f).turns q = i.turns (f q) := by
  have mem : q ∈ i.qubits.map f ↔ f q ∈ i.qubits := by
    rw [List.mem_map]
    exact ⟨fun ⟨p, hp, eq⟩ => inv.eq_iff.mp eq ▸ hp, fun h => ⟨f q, h, inv q⟩⟩
  simp only [turns, relabel, gate?, mem]

omit inv in
theorem recorded?_relabel (i : Instruction) (b : Nat) :
    (i.relabel f).recorded? b = (i.recorded? b).map f := by
  have measure : (i.relabel f).isMeasure = i.isMeasure := rfl
  have clbits : (i.relabel f).clbits = i.clbits := rfl
  rw [recorded?, recorded?, measure, clbits]
  by_cases h : i.isMeasure ∧ b ∈ i.clbits
  case pos => simp [h, relabel]
  case neg => simp [h]

theorem follow_relabel (i : Instruction) (s : Tokens) :
    (i.relabel f).follow { s with token := s.token ∘ f } =
      { i.follow s with token := (i.follow s).token ∘ f } := by
  ext q : 2
  case token => simp [follow_token, origin_relabel inv, turns_relabel inv]
  case record => simp [follow, recorded?_relabel, Function.comp_def, inv _]

end Relabel

-- Gates that both turn tokens over, or both do not, act alike.
theorem follow_gate (same : g.turns = g'.turns) (qs : List Nat) :
    (gate g qs).follow = (gate g' qs).follow := by
  funext s
  ext q : 2
  case token =>
    have turns : (gate g qs).turns q = (gate g' qs).turns q := congrArg (· && decide (q ∈ qs)) same
    have origin : (gate g qs).origin q = (gate g' qs).origin q := by
      match qs with
      | [] | [_] | [_, _] | _ :: _ :: _ :: _ => rfl
    rw [follow_token, follow_token, turns, origin]
  case record => rfl

theorem follow_turn (h : g.turns) (a : Nat) : (gate g [a]).follow s = s.turn a := by
  ext q : 2
  case token =>
    simp [follow_token, Tokens.turn, turns, origin, pair?, gate, gate?, h]
  case record => rfl

theorem follow_cx (a b : Nat) : (cx a b).follow s = s.exchange a b := by
  ext q : 2
  case token => simp [follow_token, Tokens.exchange, turns, origin, pair?, cx, gate, gate?, Gate.turns]
  case record => rfl

theorem follow_id (a : Nat) (s : Tokens) : (gate .id [a]).follow s = s := by
  ext q : 2
  case token => simp [follow_token, turns, origin, pair?, gate, gate?, Gate.turns]
  case record => rfl

theorem follow_swapAsCx (a b : Nat) (s : Tokens) :
    (swapAsCx a b).foldl (fun s i => i.follow s) s = s.exchange a b := by
  simp [swapAsCx, follow_cx, Tokens.exchange_comm a b]

theorem follow_reversedCx {turn : Gate} (turns : turn.turns) (a b : Nat) (s : Tokens) :
    (reversedCx turn a b).foldl (fun s i => i.follow s) s = (cx a b).follow s := by
  simp only [reversedCx, List.foldl_cons, List.foldl_nil, follow_turn turns, follow_cx]
  calc (((((s.turn a).turn b).exchange b a).turn a).turn b)
    _ = (((((s.turn a).exchange b a).turn a).turn a).turn b) := by rw [Tokens.turn_exchange b a]
    _ = (((s.exchange a b).turn b).turn b) := by
      rw [Tokens.turn_turn, Tokens.exchange_comm a b, Tokens.turn_exchange]
    _ = s.exchange a b := by rw [Tokens.turn_turn]

theorem follow_cz (ne : a ≠ b) (s : Tokens) :
    (gate .cz [a, b]).follow s = ((s.exchange a b).turn a).turn b := by
  ext q : 2
  case token =>
    -- On different qubits each token is turned over once.
    have once : (gate .cz [a, b]).turns q = (decide (q = a) ^^ decide (q = b)) := by
      by_cases ha : q = a
      case pos => simp [turns, gate, gate?, Gate.turns, ha, ne]
      case neg => simp [turns, gate, gate?, Gate.turns, ha]
    rw [follow_token, once, ← Bool.xor_assoc]
    rfl
  case record => rfl

-- A gate does with the tokens what its expansion does.
theorem follow_unroll (basis : Basis) (proper : (gate g qs).Proper) (s : Tokens) :
    (unroll basis g qs).foldl (fun s i => i.follow s) s = (gate g qs).follow s := by
  have arity : qs.length = g.arity := proper.arity _ rfl
  cases g
  case cx =>
    obtain ⟨a, b, rfl⟩ := List.length_eq_two.mp arity
    rfl
  case cz =>
    obtain ⟨a, b, rfl⟩ := List.length_eq_two.mp arity
    have turn := Gate.turns_hadamard basis
    have ne : a ≠ b := by simpa [gate] using proper.nodup
    rw [follow_cz ne, ← Tokens.exchange_comm a b, ← Tokens.turn_exchange b a, Tokens.exchange_comm a b]
    simp [unroll, follow_turn turn, follow_cx]
  case swap =>
    obtain ⟨a, b, rfl⟩ := List.length_eq_two.mp arity
    rw [unroll, follow_swapAsCx, ← follow_cx]
    exact congrFun (follow_gate rfl [a, b]) s
  case id =>
    obtain ⟨a, rfl⟩ := List.length_eq_one_iff.mp arity
    simp only [unroll]
    split
    case isTrue => rfl
    case isFalse => exact (follow_id a s).symm
  all_goals
    obtain ⟨a, rfl⟩ := List.length_eq_one_iff.mp arity
    exact congrFun (follow_gate ((Gate.turns_native basis _).trans (Gate.turns_rotation _)) [a]) s

-- The interpretation of an instruction by what it does with tokens.
def tracked (i : Instruction) : (Function.End Tokens)ᵐᵒᵖ :=
  .op i.follow

end Instruction

open Instruction

variable {basis : Basis}

theorem meaning_tracked (is : List Instruction) :
    meaning tracked is = .op fun s : Tokens => is.foldl (fun s i => i.follow s) s := by
  induction is
  case nil => rfl
  case cons i is hi =>
    rw [meaning_cons, hi]
    rfl

theorem meaning_tracked_swapAsCx (a b : Nat) :
    meaning tracked (swapAsCx a b) = .op (Tokens.exchange a b) := by
  rw [meaning_tracked]
  exact congrArg _ (funext (follow_swapAsCx a b))

theorem tracked_lawful (basis : Basis) : Lawful basis tracked where
  commute i j apart := congrArg _ (funext (follow_comm apart))
  unroll g qs proper := by
    rw [meaning_tracked]
    exact congrArg _ (funext fun s => (follow_unroll basis proper s).symm)
  cancel a b _ := by
    have twice : ∀ s, (cx a b).follow ((cx a b).follow s) = s := fun s => by simp [follow_cx]
    exact congrArg _ (funext twice)
  exchange i a b _ := by
    rw [meaning_tracked_swapAsCx]
    exact congrArg _ (funext (follow_relabel (Layout.exchange_exchange a b) i))
  reverse a b _ := by
    rw [meaning_tracked]
    exact congrArg _ (funext fun s => (follow_reversedCx (Gate.turns_hadamard basis) a b s).symm)

end CircuitRouting
