import CircuitRouting.Basis
import CircuitRouting.CouplingMap.Basic
import CircuitRouting.Layout
import CircuitRouting.Qasm

/-!
# Why a compilation fails
-/

namespace CircuitRouting

inductive CompileError where
  | circuit (e : CircuitError)
  | layoutDisconnected (physical : List Nat)
  | layoutIncomplete (qubit : Nat)
  | circuitTooLarge (required available : Nat)
  | routingFailed (layer trials : Nat)
  | unsupportedConnection (control target : Nat)
  | invalidCouplingMap (e : CouplingError)
  | invalidLayout (e : LayoutError)
  | invalidBasis (e : BasisError)
  | missingCouplingMap
  | missingLayout
  | emit (e : EmitError)
deriving Repr, DecidableEq

/-- What part of a compilation an error is about. -/
inductive ErrorCategory where
  | layout
  | routing
  | unsupportedConnection
  | configuration
deriving Repr, DecidableEq

namespace ErrorCategory

def name : ErrorCategory → String
  | layout => "Layout"
  | routing => "Routing"
  | unsupportedConnection => "UnsupportedConnection"
  | configuration => "Configuration"

end ErrorCategory

namespace CompileError

-- Numbers in brackets.
def listText (ns : List Nat) : String := "[" ++ ", ".intercalate (ns.map toString) ++ "]"

def message : CompileError → String
  | circuit e => "IR error: " ++ e.message
  | layoutDisconnected physical =>
    "Layout occupies physical qubits " ++ listText physical
      ++ ", which are not connected in the coupling map"
  | layoutIncomplete q => s!"Layout does not place logical qubit q{q}"
  | circuitTooLarge required available =>
    s!"Circuit requires {required} qubits but target only has {available}"
  | routingFailed layer trials =>
    s!"Routing failed for layer {layer}: no trial satisfied it within {trials} trials"
  | unsupportedConnection control target =>
    s!"CX between physical qubits {control} and {target} has no coupling in either direction"
  | invalidCouplingMap e => "Invalid coupling map: " ++ e.message
  | invalidLayout e => "Invalid layout: " ++ e.message
  | invalidBasis e => "Invalid basis: " ++ e.message
  | missingCouplingMap => "Missing coupling map for routing"
  | missingLayout => "Missing layout for routing"
  | emit e => "QASM emission failed: " ++ e.message

/-- The message, and after it the message of the error that lies under this one. -/
def trail (e : CompileError) : String :=
  match e with
  | circuit cause => e.message ++ ": " ++ cause.message
  | emit cause => e.message ++ ": " ++ cause.message
  | _ => e.message

def category : CompileError → ErrorCategory
  | layoutDisconnected _ | layoutIncomplete _ | circuitTooLarge _ _ => .layout
  | routingFailed _ _ => .routing
  | unsupportedConnection _ _ => .unsupportedConnection
  | _ => .configuration

end CompileError

end CircuitRouting
