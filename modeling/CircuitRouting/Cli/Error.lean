import CircuitRouting.CompileError
import CircuitRouting.Text.Whole

/-!
# Errors of the command line
-/

namespace CircuitRouting

inductive CliError where
  | fileNotFound (path : String)
  | unreadable (path reason : String)
  | invalidTarget (path : String)
  | invalidCircuits (path : String)
  | invalidCircuit (name : String) (e : CircuitError)
  | deviceForm (device : String)
  | deviceSize (size : String) (e : WholeError)
  | deviceEmpty (device : String)
  | deviceTooLarge (device : String)
  | deviceKind (kind : String)
  | couplingMap (e : CompileError)
  | initialLayout (e : CompileError)
  | options (e : CompileError)
  | emission (name : String) (e : CompileError)
  | directory (path reason : String)
  | unwritable (path reason : String)
  | failures (failed total : Nat)
deriving Repr, DecidableEq

namespace CliError

/-- The message: what was attempted, what went wrong, and what lies under that. -/
def message : CliError → String
  | fileNotFound path => s!"File not found: {path}"
  | unreadable path reason => s!"Failed to read file: {path}: {reason}"
  | invalidTarget path => s!"Invalid target file: {path}"
  | invalidCircuits path => s!"Invalid circuit file: {path}"
  | invalidCircuit name e => s!"Invalid circuit '{name}': " ++ e.message
  | deviceForm device => s!"Device '{device}' must look like 'linear:5'"
  | deviceSize size e => s!"Invalid device size: '{size}': " ++ e.message
  | deviceEmpty device => s!"Device '{device}' has no qubits"
  | deviceTooLarge device =>
    let limit := CouplingMap.maxQubits
    s!"Device '{device}' exceeds the limit of {limit} qubits"
  | deviceKind kind => s!"Unknown device kind: '{kind}'. Available: linear, star, full"
  | couplingMap e => "Invalid coupling map: " ++ e.trail
  | initialLayout e => "Invalid initial layout: " ++ e.trail
  | options e => "Invalid compile options: " ++ e.trail
  | emission name e => s!"Failed to emit '{name}': " ++ e.trail
  | directory path reason => s!"Failed to create directory: {path}: {reason}"
  | unwritable path reason => s!"Failed to write file: {path}: {reason}"
  | failures failed total => s!"{failed} of {total} circuit(s) failed to compile"

end CliError

end CircuitRouting
