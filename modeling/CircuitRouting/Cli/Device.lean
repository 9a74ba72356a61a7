import CircuitRouting.Cli.Error
import CircuitRouting.Text.Blank
import CircuitRouting.Text.Lowercase

/-!
# Device presets

A preset is a kind and a size: `linear:5`, `star:5` or `full:4`.
-/

namespace CircuitRouting

namespace Device

-- The texts before and after the first colon.
def splitColon? : List Char → Option (List Char × List Char)
  | [] => none
  | ':' :: rest => some ([], rest)
  | c :: rest => (splitColon? rest).map fun (a, b) => (c :: a, b)

def ofKind (kind : String) (n : Nat) : Except CliError CouplingMap :=
  if kind = "linear" ∨ kind = "line" then .ok (.linear n)
  else if kind = "star" then .ok (.star n)
  else if kind = "full" then .ok (.full n)
  else .error (.deviceKind kind)

/-- Reads a preset; the size is checked before the kind. -/
def parse (device : String) : Except CliError CouplingMap :=
  match splitColon? device.toList with
  | none => .error (.deviceForm device)
  | some (kind, size) => do
    let size := String.ofList size
    let n ← (Whole.read UInt32.size (trimBlanks size)).mapError (.deviceSize size)
    if n = 0 then throw (.deviceEmpty device)
    if CouplingMap.maxQubits < n then throw (.deviceTooLarge device)
    ofKind (lowercase (trimBlanks (String.ofList kind))) n

end Device

end CircuitRouting
