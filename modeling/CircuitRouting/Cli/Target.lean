import CircuitRouting.Cli.Device
import CircuitRouting.Compiler
import CircuitRouting.Json.Decode
import CircuitRouting.Json.Parser
import CircuitRouting.Yaml.Decode

/-!
# Target files

A target file describes a device and how to route for it, in YAML or, if its name ends in `.json`, in
JSON. Every field may be left out or null; no other field may occur.
-/

namespace CircuitRouting

structure Target where
  couplingMap : Option (List (Nat × List Nat)) := none
  initialLayout : Option (List Nat) := none
  basisGates : Option (List String) := none
  seed : Option Nat := none
  trials : Option Nat := none
  swapCap : Option Nat := none
deriving Repr, DecidableEq, Inhabited

namespace Target

def fields : List String :=
  ["coupling_map", "initial_layout", "basis_gates", "seed", "trials", "swap_cap"]

def ofJson? (j : Json) : Option Target := do
  match ← j.record? true fields with
  | [map, layout, basis, seed, trials, cap] =>
    return {
      couplingMap := ← Json.optional? (Json.indexed? (Json.list? Json.nat32?)) map
      initialLayout := ← Json.optional? (Json.list? Json.nat32?) layout
      basisGates := ← Json.optional? (Json.list? Json.text?) basis
      seed := ← Json.optional? Json.nat64? seed
      trials := ← Json.optional? Json.nat64? trials
      swapCap := ← Json.optional? Json.nat64? cap }
  | _ => none

def ofYaml? (d : Yaml.Document) : Option Target := do
  let nat32? := d.natBelow? UInt32.size
  let nat64? := d.natBelow? UInt64.size
  match ← d.record? fields with
  | [map, layout, basis, seed, trials, cap] =>
    let t : Target := {
      couplingMap := ← d.optional? (d.indexed? (d.list? nat32?)) map
      initialLayout := ← d.optional? (d.list? nat32?) layout
      basisGates := ← d.optional? (d.list? d.text?) basis
      seed := ← d.optional? nat64? seed
      trials := ← d.optional? nat64? trials
      swapCap := ← d.optional? nat64? cap }
    if d.isModest then return t else none
  | _ => none

-- The last part of a path.
def fileName (path : String) : List Char :=
  let cs := (path.toList.reverse.dropWhile (· == '/')).takeWhile (· != '/')
  cs.reverse

-- What follows the last point of a file name that does not start with it.
def extension (path : String) : String :=
  let name := fileName path
  let ext := (name.reverse.takeWhile (· != '.')).reverse
  if name = ['.', '.'] ∨ name.length ≤ ext.length + 1 then "" else String.ofList ext

def isJsonPath (path : String) : Bool := lowercase (extension path) == "json"

/-- Reads a target file by the format that its name tells. -/
def parse? (path source : String) : Option Target :=
  if isJsonPath path then (Json.parse? source).bind ofJson? else (Yaml.parse? source).bind ofYaml?

variable (t : Target)

/-- The device: that of the file, or else the preset. -/
def device (preset : Option String) : Except CliError (Option CouplingMap) :=
  match t.couplingMap, preset with
  | some adjacency, _ =>
    ((CouplingMap.ofAdjacency adjacency).mapError (.couplingMap ∘ .invalidCouplingMap)).map some
  | none, some text => (Device.parse text).map some
  | none, none => .ok none

def layout : Except CliError (Option Layout) :=
  match t.initialLayout with
  | some physical =>
    ((Layout.ofPhysical physical).mapError (.initialLayout ∘ .invalidLayout)).map some
  | none => .ok none

def effort : RoutingEffort :=
  let e : RoutingEffort := { RoutingEffort.standard with swapCap := t.swapCap }
  match t.trials with
  | some n => e.withTrials n
  | none => e

/-- The options that a target and a preset stand for. -/
def options (preset : Option String) : Except CliError CompileOptions := do
  return {
    couplingMap := ← t.device preset
    initialLayout := ← t.layout
    basis := (t.basisGates.map Basis.mk).getD .standard
    seed := t.seed.map Nat.toUInt64
    effort := t.effort }

end Target

end CircuitRouting
