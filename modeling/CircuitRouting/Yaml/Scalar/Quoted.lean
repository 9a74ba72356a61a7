import CircuitRouting.Yaml.Scalar.Gap

/-!
# Quoted scalars

Between single quotes only a quote is written in a way of its own, twice; between double quotes a
backslash starts an escape. Gaps are folded as in plain scalars, except after an escaped line break,
where line breaks count.
-/

namespace CircuitRouting

namespace Yaml

namespace Quoted

-- The character that a short escape stands for.
def shortEscape? : Char → Option Char
  | '0' => some '\x00'
  | 'a' => some '\x07'
  | 'b' => some '\x08'
  | 't' | '\t' => some '\t'
  | 'n' => some '\n'
  | 'v' => some '\x0b'
  | 'f' => some '\x0c'
  | 'r' => some '\r'
  | 'e' => some '\x1b'
  | ' ' => some ' '
  | '"' => some '"'
  | '/' => some '/'
  | '\\' => some '\\'
  | 'N' => some (Char.ofNat 0x85)
  | '_' => some (Char.ofNat 0xa0)
  | 'L' => some (Char.ofNat 0x2028)
  | 'P' => some (Char.ofNat 0x2029)
  | _ => none

-- How many hexadecimal digits follow an escape.
def codeLength? : Char → Option Nat
  | 'x' => some 2
  | 'u' => some 4
  | 'U' => some 8
  | _ => none

-- An escape after its backslash: the character and the length of the escape.
def escape? : List Char → Option (Char × Nat)
  | [] => none
  | c :: cs =>
    match codeLength? c with
    | some n => do
      let code := cs.take n
      if code.length ≠ n then none
      let value ← digits? 16 code
      if value.isValidChar then return (Char.ofNat value, n + 1) else none
    | none => (shortEscape? c).map (·, 1)

-- The characters up to a gap, a quote or an escaped line break. The flag tells that it was the last.
def word? (double : Bool) : (fuel : Nat) → Cursor → Option (List Char × Bool × Cursor)
  | 0, _ => none
  | fuel + 1, c =>
    match c.rest with
    | [] => some ([], false, c)
    | x :: cs =>
      if isGap x then some ([], false, c)
      else if double then
        if x == '"' then some ([], false, c)
        else if x == '\\' then
          if cs.head?.any isBreak then some ([], true, (c.advance 1).breakLine)
          else do
            let (y, n) ← escape? cs
            let (w, broken, c) ← word? double fuel (c.advance (n + 1))
            return (y :: w, broken, c)
        else (word? double fuel (c.advance 1)).map fun (w, r) => (x :: w, r)
      else if x == '\'' then
        if cs.head? == some '\'' then
          (word? double fuel (c.advance 2)).map fun (w, r) => ('\'' :: w, r)
        else some ([], false, c)
      else (word? double fuel (c.advance 1)).map fun (w, r) => (x :: w, r)

-- Reads words and gaps up to the closing quote, at most `fuel` of them.
def readFrom (double : Bool) : (fuel : Nat) → (seen : List Char) → Cursor →
    Option (List Char × Cursor)
  | 0, _, _ => none
  | fuel + 1, seen, c => do
    if c.seesDocumentLimit || c.rest.isEmpty then none
    let (w, broken, c) ← word? double (c.rest.length + 1) c
    if c.sees (if double then '"' else '\'') then return (seen ++ w, c.advance 1)
    let (gap, c) ← Gap.read 0 broken c
    readFrom double fuel (seen ++ w ++ if broken then gap.breaks else gap.text) c

/-- The quoted scalar whose opening quote is at the cursor. -/
def read (double : Bool) (c : Cursor) : Option (List Char × Cursor) :=
  readFrom double (c.rest.length + 1) [] (c.advance 1)

end Quoted

end Yaml

end CircuitRouting
