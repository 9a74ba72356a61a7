import CircuitRouting.Proofs.Trace

/-!
# Programs up to simplification

A program is simplified by changing the order of what is apart, by dropping two equal controlled NOTs
that stand side by side, and by writing other instructions for a part of it.
-/

namespace CircuitRouting

-- Only a measurement has classical operands.
def Instruction.Plain (i : Instruction) : Prop :=
  i.isMeasure ∨ i.clbits = []

instance : DecidablePred Instruction.Plain :=
  fun i => inferInstanceAs (Decidable (i.isMeasure ∨ i.clbits = []))

theorem Instruction.Plain.eq_gate {i : Instruction} {g : Gate} {qs : List Nat} (h : i.Plain)
    (action : i.action = .gate g) (qubits : i.qubits = qs) : i = .gate g qs := by
  cases i
  simp_all [Plain, isMeasure, gate]

theorem Instruction.Plain.clbits_eq_nil {i : Instruction} {g : Gate} (h : i.Plain)
    (action : i.action = .gate g) : i.clbits = [] :=
  h.resolve_left fun measure => by simp [isMeasure, action] at measure

theorem Instruction.isCx_iff {i : Instruction} : i.isCx ↔ i.action = .gate .cx := by
  rw [isCx]
  split
  case h_1 eq => simp [eq]
  case h_2 ne => simpa using ne

-- A part of a program may give way to what `P` says can be written for it.
inductive Simplifies (P : List Instruction → List Instruction → Prop) :
    List Instruction → List Instruction → Prop
  | reorder {is js : List Instruction} : Reorders is js → Simplifies P is js
  | cancel {a b : Nat} (l r : List Instruction) :
    a ≠ b → Simplifies P (l ++ .cx a b :: .cx a b :: r) (l ++ r)
  | rewrite {run out : List Instruction} (l r : List Instruction) :
    P run out → Simplifies P (l ++ run ++ r) (l ++ out ++ r)
  | trans {is js ks : List Instruction} :
    Simplifies P is js → Simplifies P js ks → Simplifies P is ks

theorem Simplifies.refl (P : List Instruction → List Instruction → Prop) (is : List Instruction) :
    Simplifies P is is :=
  .reorder (.refl is)

end CircuitRouting
