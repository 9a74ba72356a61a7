import CircuitRouting.Json.Number

/-!
# JSON values

Numbers and keys keep how they were written, since it matters to their readers.
-/

namespace CircuitRouting

namespace Json

/--
A text between quotes: written as it is, or with escapes. Half of a surrogate pair is no text: it may
be skipped and cannot be read.
-/
inductive Quoted where
  | plain (s : String)
  | escaped (s : String)
  | halfSurrogate
deriving Repr, DecidableEq, Inhabited

namespace Quoted

def text? : Quoted → Option String
  | plain s | escaped s => some s
  | halfSurrogate => none

instance : Coe String Quoted := ⟨plain⟩

end Quoted

end Json

/-- A JSON value. An object keeps its members in the order written, repeated keys included. -/
inductive Json where
  | null
  | bool (b : Bool)
  | num (n : Json.Number)
  | str (s : String)
  | halfSurrogate
  | arr (items : List Json)
  | obj (members : List (Json.Quoted × Json))
deriving Repr, Inhabited

namespace Json

def nat (n : Nat) : Json := .num (.ofNat n)

def int (n : Int) : Json := .num (.ofInt n)

/-- An object with the given fields. -/
def record (fields : List (String × Json)) : Json := .obj (fields.map fun (k, j) => (.plain k, j))

/-- The first member under a name. -/
def member? (members : List (Quoted × Json)) (name : String) : Option Json :=
  (members.find? fun m => m.1.text? == some name).map Prod.snd

mutual

/-- All numbers are doubles and all strings are texts. -/
def isPlain : Json → Bool
  | num n => n.float?.isSome
  | halfSurrogate => false
  | arr items => arePlain items
  | obj members => membersPlain members
  | _ => true

def arePlain : List Json → Bool
  | [] => true
  | j :: js => j.isPlain && arePlain js

def membersPlain : List (Quoted × Json) → Bool
  | [] => true
  | (k, j) :: ms => k.text?.isSome && j.isPlain && membersPlain ms

end

mutual

/-- How deep arrays and objects are nested. -/
def depth : Json → Nat
  | arr items => itemsDepth items + 1
  | obj members => membersDepth members + 1
  | _ => 0

def itemsDepth : List Json → Nat
  | [] => 0
  | j :: js => max j.depth (itemsDepth js)

def membersDepth : List (Quoted × Json) → Nat
  | [] => 0
  | (_, j) :: ms => max j.depth (membersDepth ms)

end

end Json

end CircuitRouting
