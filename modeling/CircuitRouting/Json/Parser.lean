import CircuitRouting.Json.Value

/-!
# Reading JSON

The grammar is strict: no comments, no trailing commas, no raw control characters in strings, no
leading zeros, and nothing but blanks around the value.
-/

namespace CircuitRouting

namespace Json

/-- The pieces of a JSON text. -/
inductive Token where
  | openBrace | closeBrace | openBracket | closeBracket | colon | comma
  | null | bool (b : Bool)
  | num (n : Number)
  | str (s : Quoted)
deriving Repr

namespace Token

def isBlank (c : Char) : Bool := c = ' ' || c = '\t' || c = '\n' || c = '\r'

def hexDigit? (c : Char) : Option Nat :=
  if c.isDigit then some (c.toNat - '0'.toNat)
  else if 'a' ≤ c ∧ c ≤ 'f' then some (c.toNat - 'a'.toNat + 10)
  else if 'A' ≤ c ∧ c ≤ 'F' then some (c.toNat - 'A'.toNat + 10)
  else none

-- Four hexadecimal digits.
def hexFour? : List Char → Option (Nat × List Char)
  | a :: b :: c :: d :: rest => do
    let a ← hexDigit? a
    let b ← hexDigit? b
    let c ← hexDigit? c
    let d ← hexDigit? d
    return (((a * 16 + b) * 16 + c) * 16 + d, rest)
  | _ => none

-- The character that a short escape stands for.
def shortEscape? : Char → Option Char
  | '"' => some '"'
  | '\\' => some '\\'
  | '/' => some '/'
  | 'b' => some '\x08'
  | 'f' => some '\x0c'
  | 'n' => some '\n'
  | 'r' => some '\r'
  | 't' => some '\t'
  | _ => none

def isHighSurrogate (n : Nat) : Bool := 0xd800 ≤ n && n < 0xdc00

def isLowSurrogate (n : Nat) : Bool := 0xdc00 ≤ n && n < 0xe000

-- The second half of a surrogate pair, written right after the first.
def lowSurrogate? : List Char → Option (Nat × List Char)
  | '\\' :: 'u' :: rest =>
    match hexFour? rest with
    | some (n, rest) => if isLowSurrogate n then some (n, rest) else none
    | none => none
  | _ => none

-- An escape, after its backslash: the character, if it is one, and the rest.
def escape? : List Char → Option (Option Char × List Char)
  | 'u' :: rest => do
    let (n, rest) ← hexFour? rest
    if isHighSurrogate n then
      match lowSurrogate? rest with
      | some (m, rest) =>
        return (some (Char.ofNat (0x10000 + (n - 0xd800) * 0x400 + (m - 0xdc00))), rest)
      | none => return (none, rest)
    else if isLowSurrogate n then return (none, rest)
    else return (some (Char.ofNat n), rest)
  | c :: rest => (shortEscape? c).map fun x => (some x, rest)
  | [] => none

-- The rest of a string after its characters so far, the last of them first, and what follows its
-- quote. No characters stand for a string that has no text.
def string? : (fuel : Nat) → (escapes : Bool) → (seen : Option (List Char)) → List Char →
    Option (Quoted × List Char)
  | 0, _, _, _ => none
  | _, _, _, [] => none
  | _, escapes, seen, '"' :: rest =>
    let q := match seen with
      | none => .halfSurrogate
      | some cs =>
        let s := String.ofList cs.reverse
        if escapes then .escaped s else .plain s
    some (q, rest)
  | fuel + 1, _, seen, '\\' :: rest => do
    let (c, rest) ← escape? rest
    string? fuel true (do return (← c) :: (← seen)) rest
  | fuel + 1, escapes, seen, c :: rest =>
    if c.toNat < 0x20 then none else string? fuel escapes (seen.map (c :: ·)) rest

/-- A number: no leading zeros, and digits on both sides of a point. -/
def number? (cs : List Char) : Option (Number × List Char) := do
  let (negative, cs) := match cs with
    | '-' :: cs => (true, cs)
    | cs => (false, cs)
  let whole := cs.takeWhile Char.isDigit
  let rest := cs.dropWhile Char.isDigit
  if whole.isEmpty ∨ (whole.head? = some '0' ∧ whole.length ≠ 1) then none
  let (fraction, rest) ← match rest with
    | '.' :: r =>
      let ds := r.takeWhile Char.isDigit
      if ds.isEmpty then none else some (some ds, r.dropWhile Char.isDigit)
    | r => some (none, r)
  let (exponent, rest) ← match rest with
    | e :: r =>
      if e = 'e' ∨ e = 'E' then
        let (sign, r) := match r with
          | '-' :: r => ((-1 : Int), r)
          | '+' :: r => (1, r)
          | r => (1, r)
        let ds := r.takeWhile Char.isDigit
        if ds.isEmpty then none
        else some (some (sign * Decimal.ofDigits ds), r.dropWhile Char.isDigit)
      else some (none, rest)
    | [] => some (none, [])
  return (.ofParts negative whole fraction exponent, rest)

-- The first token of a text that does not start with a blank and is at most `fuel` long.
def next? (fuel : Nat) : List Char → Option (Token × List Char)
  | '{' :: r => some (openBrace, r)
  | '}' :: r => some (closeBrace, r)
  | '[' :: r => some (openBracket, r)
  | ']' :: r => some (closeBracket, r)
  | ':' :: r => some (colon, r)
  | ',' :: r => some (comma, r)
  | 'n' :: 'u' :: 'l' :: 'l' :: r => some (null, r)
  | 't' :: 'r' :: 'u' :: 'e' :: r => some (bool true, r)
  | 'f' :: 'a' :: 'l' :: 's' :: 'e' :: r => some (bool false, r)
  | '"' :: r => (string? (fuel + 1) false (some []) r).map fun (s, rest) => (str s, rest)
  | cs => (number? cs).map fun (n, rest) => (num n, rest)

-- The tokens of a text that is at most `fuel` long.
def scan? : (fuel : Nat) → List Char → Option (List Token)
  | 0, cs => if cs.all isBlank then some [] else none
  | fuel + 1, cs =>
    match cs.dropWhile isBlank with
    | [] => some []
    | cs => do
      let (t, rest) ← next? (fuel + 1) cs
      return t :: (← scan? fuel rest)

end Token

mutual

/-- The value that the tokens start with, nested at most `fuel` deep and wide. -/
def value? : (fuel : Nat) → List Token → Option (Json × List Token)
  | 0, _ => none
  | fuel + 1, tokens =>
    match tokens with
    | .null :: rest => some (.null, rest)
    | .bool b :: rest => some (.bool b, rest)
    | .num n :: rest => some (.num n, rest)
    | .str .halfSurrogate :: rest => some (.halfSurrogate, rest)
    | .str (.plain s) :: rest | .str (.escaped s) :: rest => some (.str s, rest)
    | .openBracket :: .closeBracket :: rest => some (.arr [], rest)
    | .openBracket :: rest => (items? fuel rest).map fun (js, rest) => (.arr js, rest)
    | .openBrace :: .closeBrace :: rest => some (.obj [], rest)
    | .openBrace :: rest => (members? fuel rest).map fun (ms, rest) => (.obj ms, rest)
    | _ => none

-- The items of an array and its closing bracket.
def items? : (fuel : Nat) → List Token → Option (List Json × List Token)
  | 0, _ => none
  | fuel + 1, tokens => do
    let (j, rest) ← value? fuel tokens
    match rest with
    | .comma :: rest =>
      let (js, rest) ← items? fuel rest
      return (j :: js, rest)
    | .closeBracket :: rest => return ([j], rest)
    | _ => none

/-- The members of an object and its closing brace. -/
def members? : (fuel : Nat) → List Token → Option (List (Quoted × Json) × List Token)
  | 0, _ => none
  | fuel + 1, tokens =>
    match tokens with
    | .str key :: .colon :: rest => do
      let (j, rest) ← value? fuel rest
      match rest with
      | .comma :: rest =>
        let (ms, rest) ← members? fuel rest
        return ((key, j) :: ms, rest)
      | .closeBrace :: rest => return ([(key, j)], rest)
      | _ => none
    | _ => none

end

/-- Reads a text that holds one value. -/
def parse? (s : String) : Option Json := do
  let cs := s.toList
  let tokens ← Token.scan? cs.length cs
  match ← value? (2 * tokens.length + 2) tokens with
  | (j, []) => some j
  | _ => none

end Json

end CircuitRouting
