/-!
# Reading YAML texts

The classes of characters that YAML knows, and a cursor in a text. All line breaks but the separators
of Unicode are one character, the line feed, once a text is normal.
-/

namespace CircuitRouting

namespace Yaml

/-- A character that may stand in a text: no control character but tab and the line breaks. -/
def isAllowed (c : Char) : Bool :=
  let n := c.toNat
  n = 0x9 || n = 0xa || n = 0xd || (0x20 ≤ n && n ≤ 0x7e) || n = 0x85 || (0xa0 ≤ n && n ≤ 0xd7ff) ||
    (0xe000 ≤ n && n ≤ 0xfffd) || 0x10000 ≤ n

/-- Carriage returns, alone or before a line feed, and next line characters become line feeds. -/
def normalBreaks : List Char → List Char
  | '\r' :: '\n' :: cs => '\n' :: normalBreaks cs
  | c :: cs => (if c = '\r' || c.toNat = 0x85 then '\n' else c) :: normalBreaks cs
  | [] => []

def isBreak (c : Char) : Bool := c = '\n' || c.toNat = 0x2028 || c.toNat = 0x2029

def isBlank (c : Char) : Bool := c = ' ' || c = '\t'

def isGap (c : Char) : Bool := isBlank c || isBreak c

/-- A character of names: an ASCII letter or digit, a hyphen or an underscore. -/
def isNameChar (c : Char) : Bool := c.isAlphanum || c = '-' || c = '_'

def byteOrderMark : Char := Char.ofNat 0xfeff

def hexDigit? (c : Char) : Option Nat :=
  if c.isDigit then some (c.toNat - '0'.toNat)
  else if 'a' ≤ c ∧ c ≤ 'f' then some (c.toNat - 'a'.toNat + 10)
  else if 'A' ≤ c ∧ c ≤ 'F' then some (c.toNat - 'A'.toNat + 10)
  else none

-- The number that some digits in a base of at most sixteen stand for; no digits stand for none.
def digits? (base : Nat) (cs : List Char) : Option Nat :=
  if cs.isEmpty then none
  else cs.foldlM (fun n c => ((hexDigit? c).filter (· < base)).map (base * n + ·)) 0

/-- What is left of a text, and the place where it starts. -/
structure Cursor where
  rest : List Char
  line : Nat := 0
  column : Nat := 0
deriving Repr

namespace Cursor

variable (c : Cursor)

def peek? : Option Char := c.rest.head?

/-- Past `n` characters of the line. -/
def advance (n : Nat) : Cursor := { c with rest := c.rest.drop n, column := c.column + n }

/-- Past a line break, if one is next. -/
def breakLine : Cursor :=
  match c.rest with
  | b :: cs => if isBreak b then ⟨cs, c.line + 1, 0⟩ else c
  | [] => c

/-- The next characters of a class, which has no line breaks. -/
def taken (p : Char → Bool) : List Char := c.rest.takeWhile p

/-- Past the next characters of a class, which has no line breaks. -/
def skip (p : Char → Bool) : Cursor :=
  { c with rest := c.rest.dropWhile p, column := c.column + (c.taken p).length }

/-- The next character is `x`. -/
def sees (x : Char) : Bool := c.peek? == some x

/-- The next character is of a class, or the text ends. -/
def endsOr (p : Char → Bool) : Bool := c.peek?.all p

/-- Past a byte order mark that starts a line; it takes a column. -/
def skipMark : Cursor := if c.column == 0 && c.sees byteOrderMark then c.advance 1 else c

/-- Past a comment, if one is next. -/
def skipComment : Cursor := if c.sees '#' then c.skip (!isBreak ·) else c

/-- Past blanks, a comment and the end of the line; none if something else stands on it. -/
def endLine? : Option Cursor :=
  let c := (c.skip isBlank).skipComment
  if c.endsOr isBreak then some c.breakLine else none

/-- A line starts here with three times the character `x` and nothing attached to them. -/
def seesMarker (x : Char) : Bool :=
  c.column == 0 && c.rest.take 3 == [x, x, x] && (c.advance 3).endsOr isGap

/-- A line starts here that begins or ends a document. -/
def seesDocumentLimit : Bool := c.seesMarker '-' || c.seesMarker '.'

end Cursor

end Yaml

end CircuitRouting
