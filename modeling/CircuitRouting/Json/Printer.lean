import CircuitRouting.Json.Value

/-!
# Writing JSON

Two layouts: `compact` without blanks, and `pretty` with two blanks for each level.
-/

namespace CircuitRouting

namespace Json

def hexChar (n : Nat) : Char := (Nat.toDigits 16 n).headD '0'

-- A character inside quotes.
def escaped (c : Char) : List Char :=
  if c = '"' then ['\\', '"']
  else if c = '\\' then ['\\', '\\']
  else if c = '\n' then ['\\', 'n']
  else if c = '\r' then ['\\', 'r']
  else if c = '\t' then ['\\', 't']
  else if c = '\x08' then ['\\', 'b']
  else if c = '\x0c' then ['\\', 'f']
  else if c.toNat < 0x20 then ['\\', 'u', '0', '0', hexChar (c.toNat / 16), hexChar (c.toNat % 16)]
  else [c]

def quoted (s : String) : String :=
  "\"" ++ String.ofList (s.toList.flatMap escaped) ++ "\""

def Quoted.written (q : Quoted) : String := quoted (q.text?.getD "")

/-- A number: a whole literal by its digits, any other by the shortest decimal. -/
def Number.text (n : Number) : String :=
  if n.integral then (if n.negative then "-" else "") ++ toString n.value.digits
  else floatText (n.float?.getD 0)

mutual

def compact : Json → String
  | null => "null"
  | bool b => if b then "true" else "false"
  | num n => n.text
  | str s => quoted s
  | halfSurrogate => "null"
  | arr items => "[" ++ ",".intercalate (compactItems items) ++ "]"
  | obj members => "\x7b" ++ ",".intercalate (compactMembers members) ++ "\x7d"

def compactItems : List Json → List String
  | [] => []
  | j :: js => j.compact :: compactItems js

def compactMembers : List (Quoted × Json) → List String
  | [] => []
  | (k, j) :: ms => (k.written ++ ":" ++ j.compact) :: compactMembers ms

end

-- A line break and the blanks of a level.
def newline (level : Nat) : String :=
  "\n" ++ String.ofList (List.replicate (2 * level) ' ')

mutual

def prettyAt (level : Nat) : Json → String
  | arr [] => "[]"
  | arr items => "[" ++ ",".intercalate (prettyItems (level + 1) items) ++ newline level ++ "]"
  | obj [] => "\x7b\x7d"
  | obj members =>
    "\x7b" ++ ",".intercalate (prettyMembers (level + 1) members) ++ newline level ++ "\x7d"
  | null => "null"
  | bool b => if b then "true" else "false"
  | num n => n.text
  | str s => quoted s
  | halfSurrogate => "null"

def prettyItems (level : Nat) : List Json → List String
  | [] => []
  | j :: js => (newline level ++ j.prettyAt level) :: prettyItems level js

def prettyMembers (level : Nat) : List (Quoted × Json) → List String
  | [] => []
  | (k, j) :: ms =>
    (newline level ++ k.written ++ ": " ++ j.prettyAt level) :: prettyMembers level ms

end

def pretty (j : Json) : String := j.prettyAt 0

end Json

end CircuitRouting
