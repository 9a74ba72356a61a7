import CircuitRouting.Json.Value

/-!
# Decoding JSON

Readers of the values that files hold. Each gives nothing for a value of another form.
-/

namespace CircuitRouting

namespace Json

def text? : Json → Option String
  | str s => some s
  | _ => none

/-- A whole number literal below `bound`. -/
def natBelow? (bound : Nat) : Json → Option Nat
  | num n => n.nat?.filter (· < bound)
  | _ => none

/-- A number of 32 bits. -/
def nat32? : Json → Option Nat := natBelow? UInt32.size

/-- A number of 64 bits. -/
def nat64? : Json → Option Nat := natBelow? UInt64.size

def float? : Json → Option Float
  | num n => n.float?
  | _ => none

def list? {α : Type} (item? : Json → Option α) : Json → Option (List α)
  | arr js => js.mapM item?
  | _ => none

/-- A value that may be left out or null. -/
def optional? {α : Type} (value? : Json → Option α) : Option Json → Option (Option α)
  | none => some none
  | some null => some none
  | some j => (value? j).map some

/-- A list that may be left out. -/
def listOrEmpty? {α : Type} (item? : Json → Option α) : Option Json → Option (List α)
  | none => some []
  | some j => j.list? item?

/-- Some key of `names` occurs twice. -/
def repeats (names : List String) (members : List (Quoted × Json)) : Bool :=
  names.any fun name => 1 < members.countP fun m => m.1.text? == some name

/--
The fields of a record, in the order of `names`: the members of an object, or the items of an array
in this order, of which the last may be missing. A repeated field is refused, and so is a key without
a text, and an unknown field if the record is `closed`.
-/
def record? (closed : Bool) (names : List String) : Json → Option (List (Option Json))
  | obj members =>
    if repeats names members then none
    else if members.any (fun m => m.1.text?.all fun k => closed && !names.contains k) then none
    else some (names.map (member? members))
  | arr items =>
    if items.length ≤ names.length then
      some ((List.range names.length).map fun i => items[i]?)
    else none
  | _ => none

-- A decimal without sign, leading zeros or escapes.
def index? : Quoted → Option Nat
  | .plain s =>
    let cs := s.toList
    if cs.isEmpty ∨ !cs.all Char.isDigit ∨ (cs.head? = some '0' ∧ cs.length ≠ 1) then none
    else some (Decimal.ofDigits cs)
  | _ => none

/-- An object whose keys are numbers of 32 bits. -/
def indexed? {α : Type} (item? : Json → Option α) : Json → Option (List (Nat × α))
  | obj members =>
    members.mapM fun (k, j) => do
      let k ← (index? k).filter (· < UInt32.size)
      let v ← item? j
      return (k, v)
  | _ => none

end Json

end CircuitRouting
