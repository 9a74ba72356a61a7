import CircuitRouting.Proofs.Pass.Expansion

/-!
# Gates that a basis lists

A basis that passes its checks lists `u3` and `cx` and nothing that cannot be targeted. Expansion leaves
only gates that the basis lists, and those it leaves as they are.
-/

namespace CircuitRouting

namespace Basis

variable {b : Basis} {seen gs : List String}

theorem of_checkListed (h : checkListed seen gs = .ok ()) : ∀ g ∈ gs, g ∈ supported ∨ g ∈ always := by
  induction gs generalizing seen
  case nil => simp
  case cons g gs hi =>
    rw [checkListed] at h
    split at h
    case isTrue => contradiction
    case isFalse known =>
      split at h
      case isTrue => contradiction
      case isFalse =>
        refine List.forall_mem_cons.mpr ⟨?_, hi h⟩
        simp only [Bool.and_eq_true, Bool.not_eq_true', not_and, List.contains_iff_mem,
          ← Bool.not_eq_true] at known
        tauto

theorem of_validate (h : b.validate = .ok ()) :
    (∀ g ∈ b.gates, g ∈ supported ∨ g ∈ always) ∧ "u3" ∈ b.gates ∧ "cx" ∈ b.gates := by
  have ⟨_, listed, needed⟩ := bind_eq_ok_iff.mp h
  have has : ∀ g ∈ required, b.contains g := by
    intro g hg
    have := forM_eq_ok_iff.mp needed g hg
    split at this
    case isTrue has => exact has
    case isFalse => contradiction
  refine ⟨of_checkListed listed, ?_, ?_⟩
  case refine_1 => simpa [contains, always] using has "u3" (by simp [required])
  case refine_2 => simpa [contains, always] using has "cx" (by simp [required])

-- A gate is never among what every device runs.
theorem mem_gates_of_contains {g : Gate} (h : b.contains g.name) : g.name ∈ b.gates := by
  cases g <;> simpa [contains, always, Gate.name] using h

end Basis

namespace Gate

variable {basis : Basis}

theorem mem_gates_native (u3 : "u3" ∈ basis.gates) {g : Gate}
    (h : g.name = "u1" ∨ g.name = "u2" ∨ g.name = "u3") : (g.native basis).name ∈ basis.gates := by
  cases g <;> simp [name] at h
  case u1 =>
    simp only [native]
    split
    case isTrue has => exact Basis.mem_gates_of_contains (g := .u1 _) has
    case isFalse => exact u3
  case u2 =>
    simp only [native]
    split
    case isTrue has => exact Basis.mem_gates_of_contains (g := .u2 _ _) has
    case isFalse => exact u3
  case u3 => exact u3

theorem mem_gates_hadamard (u3 : "u3" ∈ basis.gates) : (hadamard basis).name ∈ basis.gates :=
  mem_gates_native u3 (.inr (.inl rfl))

end Gate

namespace Instruction

variable {basis : Basis} {i j : Instruction}

-- An instruction that is no gate, or a gate that the basis lists.
def Native (basis : Basis) (i : Instruction) : Prop :=
  ∀ g, i.action = .gate g → g.name ∈ basis.gates

theorem native_gate {g : Gate} {qs : List Nat} (h : g.name ∈ basis.gates) :
    (gate g qs).Native basis := by
  rintro _ ⟨⟩
  exact h

theorem native_cx (h : "cx" ∈ basis.gates) (a b : Nat) : (cx a b).Native basis :=
  native_gate h

theorem native_swapAsCx (h : "cx" ∈ basis.gates) {a b : Nat} (hj : j ∈ swapAsCx a b) :
    j.Native basis := by
  simp only [swapAsCx, List.mem_cons, List.not_mem_nil, or_false] at hj
  rcases hj with rfl | rfl | rfl <;> exact native_cx h _ _

theorem native_unroll (u3 : "u3" ∈ basis.gates) (cx : "cx" ∈ basis.gates) {g : Gate}
    {qs : List Nat} (hj : j ∈ unroll basis g qs) : j.Native basis := by
  have turn := Gate.mem_gates_hadamard u3
  cases g
  case id =>
    simp only [unroll] at hj
    split at hj
    case isTrue has =>
      exact List.mem_singleton.mp hj ▸ native_gate (Basis.mem_gates_of_contains (g := .id) has)
    case isFalse => simp at hj
  case cx => exact List.mem_singleton.mp hj ▸ native_cx cx _ _
  case cz =>
    simp only [unroll, List.mem_cons, List.not_mem_nil, or_false] at hj
    rcases hj with rfl | rfl | rfl
    · exact native_gate turn
    · exact native_cx cx _ _
    · exact native_gate turn
  case swap => exact native_swapAsCx cx hj
  all_goals
    refine List.mem_singleton.mp hj ▸ native_gate (Gate.mem_gates_native u3 ?_)
    simp [Gate.rotation, Gate.name]

theorem native_expand (u3 : "u3" ∈ basis.gates) (cx : "cx" ∈ basis.gates)
    (hj : j ∈ i.expand basis) : j.Native basis := by
  rw [expand] at hj
  split at hj
  case h_1 g action =>
    split at hj
    case isTrue has =>
      cases List.mem_singleton.mp hj
      intro g' action'
      cases action.symm.trans action'
      exact Basis.mem_gates_of_contains has
    case isFalse => exact native_unroll u3 cx hj
  case h_2 other =>
    cases List.mem_singleton.mp hj
    exact fun g action => absurd action (other g)

-- What the basis lists is not expanded.
theorem expand_of_native (h : i.Native basis) : i.expand basis = [i] := by
  rw [expand]
  split
  case h_1 g action => rw [if_pos (by simp [Basis.contains, h g action])]
  case h_2 => rfl

end Instruction

end CircuitRouting
