import CircuitRouting.Description.Basic
import CircuitRouting.Json.Decode
import CircuitRouting.Json.Parser

/-!
# Reading circuit descriptions

A description is an object or an array of its fields; unknown fields are skipped.
-/

namespace CircuitRouting

def Register.ofJson? (j : Json) : Option Register := do
  match ← j.record? false ["name", "size"] with
  | [some name, some size] => return ⟨← name.text?, ← size.nat32?⟩
  | _ => none

def BitRef.ofJson? : Json → Option BitRef
  | .arr [register, index] => do return ⟨← register.text?, ← index.nat32?⟩
  | _ => none

def OpDescription.ofJson? (j : Json) : Option OpDescription := do
  match ← j.record? false ["gate", "params", "qubits", "clbits"] with
  | [some gate, params, some qubits, clbits] =>
    return {
      gate := ← gate.text?
      params := ← Json.listOrEmpty? Json.float? params
      qubits := ← qubits.list? BitRef.ofJson?
      clbits := ← Json.listOrEmpty? BitRef.ofJson? clbits }
  | _ => none

namespace Description

def ofJson? (j : Json) : Option Description := do
  match ← j.record? false ["name", "qregs", "cregs", "ops"] with
  | [some name, qregs, cregs, ops] =>
    return {
      name := ← name.text?
      qregs := ← Json.listOrEmpty? Register.ofJson? qregs
      cregs := ← Json.listOrEmpty? Register.ofJson? cregs
      ops := ← Json.listOrEmpty? OpDescription.ofJson? ops }
  | _ => none

/-- Reads a description from a text. -/
def parse? (s : String) : Option Description := (Json.parse? s).bind ofJson?

-- How deep a file of descriptions may be nested.
def maxDepth : Nat := 127

/-- Reads a file of descriptions: one, or else a list of them. What is skipped has to be plain too. -/
def parseFile? (s : String) : Option (List Description) := do
  let j ← (Json.parse? s).filter fun j => j.isPlain && j.depth ≤ maxDepth
  match ofJson? j with
  | some d => some [d]
  | none => j.list? ofJson?

end Description

end CircuitRouting
