import CircuitRouting.Numeric.Sum
import CircuitRouting.Yaml.Grammar

/-!
# Decoding YAML

Readers of the nodes of a document. Each gives nothing for a node of another form, and each follows
aliases.
-/

namespace CircuitRouting

namespace Yaml

def nullTag : String := "tag:yaml.org,2002:null"

def intTag : String := "tag:yaml.org,2002:int"

/-- The plain scalars that stand for nothing, besides the empty one. -/
def nullWords : List String := ["~", "null", "Null", "NULL"]

-- A whole number: an optional `+`, then a base mark and digits, or decimal digits without a leading
-- zero.
def whole? (s : String) : Option Nat :=
  let cs := match s.toList with
    | '+' :: cs => cs
    | cs => cs
  match cs with
  | '0' :: 'x' :: ds => digits? 16 ds
  | '0' :: 'o' :: ds => digits? 8 ds
  | '0' :: 'b' :: ds => digits? 2 ds
  | ['0'] => some 0
  | '0' :: _ => none
  | ds => digits? 10 ds

namespace Document

variable (d : Document)

/-- A plain scalar, or a literal one that is tagged so, that is a whole number below `bound`. -/
def natBelow? (bound : Nat) (n : Node) : Option Nat := do
  match ← d.resolve n with
  | .scalar p style text =>
    if style = .plain ∨ (style = .literal ∧ p.tag = some intTag) then
      (whole? text).filter (· < bound)
    else none
  | _ => none

/-- The text of any scalar. -/
def text? (n : Node) : Option String := do
  match ← d.resolve n with
  | .scalar _ _ text => some text
  | _ => none

/-- The items of a sequence; a missing node has none. -/
def items? (n : Node) : Option (List Node) := do
  match ← d.resolve n with
  | .seq _ ns => some ns
  | .scalar _ .plain "" => some []
  | _ => none

/-- The members of a mapping; a missing node has none. -/
def members? (n : Node) : Option (List (Node × Node)) := do
  match ← d.resolve n with
  | .map _ ms => some ms
  | .scalar _ .plain "" => some []
  | _ => none

/-- The node stands for nothing; a node tagged so has to. -/
def isNull? (n : Node) : Option Bool := do
  match ← d.resolve n with
  | .scalar p .plain text =>
    match p.tag with
    | none => some (text.isEmpty || nullWords.contains text)
    | some tag =>
      if tag = nullTag then (if nullWords.contains text then some true else none) else some false
  | _ => some false

def list? {α : Type} (item? : Node → Option α) (n : Node) : Option (List α) := do
  (← d.items? n).mapM item?

/-- A node that may be left out or null. -/
def optional? {α : Type} (value? : Node → Option α) : Option Node → Option (Option α)
  | none => some none
  | some n => do
    if ← d.isNull? n then return none
    return some (← value? n)

/-- A mapping whose keys are whole numbers of 32 bits. -/
def indexed? {α : Type} (item? : Node → Option α) (n : Node) : Option (List (Nat × α)) := do
  (← d.members? n).mapM fun (k, v) => do return (← d.natBelow? UInt32.size k, ← item? v)

/-- The fields of the root, in the order of `names`. No field may be repeated, and no other occur. -/
def record? (names : List String) : Option (List (Option Node)) := do
  let members ← match d.root with
    | some root => d.members? root
    | none => some []
  let members ← members.mapM fun (k, v) => do return (← d.text? k, v)
  if names.any fun name => 1 < members.countP fun m => m.1 == name then none
  else if members.any fun m => !names.contains m.1 then none
  else some (names.map fun name => members.lookup name)

-- How many aliases are followed on the way through a node, at most `depth` levels down.
def jumps : (depth : Nat) → Node → Nat
  | 0, _ => 0
  | depth + 1, n =>
    let here := match n with
      | .aliasOf _ => 1
      | _ => 0
    here + match d.resolve n with
      | some (.seq _ ns) => natSum (ns.map (jumps depth))
      | some (.map _ ms) => natSum (ms.map fun (k, v) => jumps depth k + jumps depth v)
      | _ => 0

-- The levels of a record of mappings of lists.
def recordDepth : Nat := 4

/-- Following the aliases of a record visits each node a hundred times at most on average. -/
def isModest : Bool := d.root.all fun root => d.jumps recordDepth root ≤ 100 * root.events

end Document

end Yaml

end CircuitRouting
