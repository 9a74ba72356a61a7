import CircuitRouting.Angle
import CircuitRouting.Circuit

/-!
# Programs as text

`Qasm.emit` writes a circuit as an OpenQASM 2.0 program: two header lines, a line for each register,
and a line for each operation in topological order.
-/

namespace CircuitRouting

inductive EmitError where
  | unboundQubit (qubit : Nat)
  | unboundClbit (clbit : Nat)
  | measureArity (qubits clbits : Nat)
  | nonFiniteParameter (gate : String)
deriving Repr, DecidableEq

namespace EmitError

def message : EmitError → String
  | unboundQubit q => s!"Qubit q{q} is not bound to any register"
  | unboundClbit c => s!"Classical bit c{c} is not bound to any register"
  | measureArity qubits clbits =>
    s!"Measurement on {qubits} qubit(s) writes {clbits} classical bit(s)"
  | nonFiniteParameter gate => s!"Gate '{gate}' has a non-finite parameter"

end EmitError

namespace Qasm

-- The lines that open every program.
def header : List String := ["OPENQASM 2.0;", "include \"qelib1.inc\";"]

def declaration (keyword : String) (r : Register) : String :=
  keyword ++ " " ++ r.name ++ "[" ++ toString r.size ++ "];"

variable (c : Circuit)

def qubit (q : Nat) : Except EmitError String :=
  match c.qubits[q]? with
  | some b => .ok b.text
  | none => .error (.unboundQubit q)

def clbit (b : Nat) : Except EmitError String :=
  match c.clbits[b]? with
  | some r => .ok r.text
  | none => .error (.unboundClbit b)

/-- The operands of an instruction, joined by commas. -/
def operands (qs : List Nat) : Except EmitError String :=
  (qs.mapM (qubit c)).map (",".intercalate ·)

/-- The name of a gate with its parameters. -/
def head (g : Gate) : String :=
  if g.params.isEmpty then g.name
  else g.name ++ "(" ++ ",".intercalate (g.params.map Angle.text) ++ ")"

/-- The lines of an instruction: one, save for a measurement of several qubits. -/
def lines (i : Instruction) : Except EmitError (List String) :=
  match i.action with
  | .gate g =>
    if g.params.any fun p => !p.isFinite then .error (.nonFiniteParameter g.name)
    else (operands c i.qubits).map fun qs => [head g ++ " " ++ qs ++ ";"]
  | .measure =>
    if i.qubits.length ≠ i.clbits.length then
      .error (.measureArity i.qubits.length i.clbits.length)
    else
      (i.qubits.zip i.clbits).mapM fun (q, b) => do
        let q ← qubit c q
        let b ← clbit c b
        return "measure " ++ q ++ " -> " ++ b ++ ";"
  | .barrier => (operands c i.qubits).map fun qs => ["barrier " ++ qs ++ ";"]

/-- All lines of a program. -/
def program : Except EmitError (List String) := do
  let body ← c.dag.instructions.mapM (lines c)
  return header ++ c.qregs.map (declaration "qreg") ++ c.cregs.map (declaration "creg")
    ++ body.flatten

/-- The text of a program; each line ends with a line break. -/
def emit : Except EmitError String :=
  (program c).map fun ls => String.join (ls.map (· ++ "\n"))

end Qasm

end CircuitRouting
