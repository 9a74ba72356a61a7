import CircuitRouting.Yaml.Property
import CircuitRouting.Yaml.Scalar.Block
import CircuitRouting.Yaml.Scalar.Plain
import CircuitRouting.Yaml.Scalar.Quoted

/-!
# From text to tokens

The scanner keeps the columns of the open blocks, and for each open bracket or brace, and for the block
around them, the place where a key may have started. A colon turns such a candidate into a key: its
token is inserted where the candidate starts. A candidate is given up after its line, or after 1024
columns.
-/

namespace CircuitRouting

namespace Yaml

/-- A place where a key may have started, as the number of its token. -/
structure Candidate where
  position : Nat
  line : Nat
  column : Nat
  required : Bool
deriving Repr

structure Scanner where
  cursor : Cursor
  indents : List Nat := []
  candidate : Option Candidate := none
  outer : List (Option Candidate) := []
  keyAllowed : Bool := true
  tokens : Array Token := #[]

namespace Scanner

/-- How long a key may be. -/
def maxKeyLength : Nat := 1024

variable (s : Scanner)

def inFlow : Bool := !s.outer.isEmpty

def push (t : Token) : Scanner := { s with tokens := s.tokens.push t }

/-- Adds the token for the next `n` characters. -/
def emit (t : Token) (n : Nat) : Scanner := { s.push t with cursor := s.cursor.advance n }

-- Gives up the candidate; one that has to be a key cannot be given up.
def dropCandidate : Option Scanner :=
  if s.candidate.any Candidate.required then none else some { s with candidate := none }

-- What stands here may be a key.
def saveCandidate : Option Scanner :=
  if s.keyAllowed then do
    let s ← s.dropCandidate
    return { s with
      candidate := some {
        position := s.tokens.size
        line := s.cursor.line
        column := s.cursor.column
        required := !s.inFlow && s.indents.head? == some s.cursor.column } }
  else some s

-- A candidate has fallen behind.
def isStale (k : Candidate) : Bool :=
  k.line < s.cursor.line || k.column + maxKeyLength < s.cursor.column

def refresh (k : Option Candidate) : Option (Option Candidate) :=
  match k with
  | some k => if s.isStale k then (if k.required then none else some none) else some (some k)
  | none => some none

-- Gives up the candidates that have fallen behind.
def dropStale : Option Scanner := do
  return { s with candidate := ← s.refresh s.candidate, outer := ← s.outer.mapM s.refresh }

-- Opens a block at a column right of the open ones; its token goes to a position.
def openBlock (column position : Nat) (start : Token) : Scanner :=
  if s.inFlow || s.indents.head?.any (column ≤ ·) then s
  else { s with
    indents := column :: s.indents
    tokens := s.tokens.insertIdxIfInBounds position start }

-- Closes the blocks that the test holds for.
def closeBlocks (p : Nat → Bool) : Scanner :=
  if s.inFlow then s
  else
    let closed := (s.indents.takeWhile p).length
    { s with
      indents := s.indents.drop closed
      tokens := s.tokens ++ Array.replicate closed .blockEnd }

-- Skips blanks, comments and line breaks, at most `fuel` lines. Where a key is allowed tabs do not
-- count as blanks.
def skipGaps : (fuel : Nat) → Scanner → Scanner
  | 0, s => s
  | fuel + 1, s =>
    let tabs := s.inFlow || !s.keyAllowed
    let c := (s.cursor.skipMark.skip fun x => x == ' ' || (tabs && x == '\t')).skipComment
    if c.peek?.any isBreak then
      skipGaps fuel { s with cursor := c.breakLine, keyAllowed := s.keyAllowed || !s.inFlow }
    else { s with cursor := c }

def documentLimit (t : Token) : Option Scanner := do
  let s ← (s.closeBlocks fun _ => true).dropCandidate
  return { s with keyAllowed := false }.emit t 3

def directive : Option Scanner := do
  let s ← (s.closeBlocks fun _ => true).dropCandidate
  let (t, cursor) ← Property.directive? s.cursor
  return { s.push t with cursor, keyAllowed := false }

def openFlow (t : Token) : Option Scanner := do
  let s ← s.saveCandidate
  return { s with candidate := none, outer := s.candidate :: s.outer, keyAllowed := true }.emit t 1

def closeFlow (t : Token) : Option Scanner := do
  let s ← s.dropCandidate
  let s := match s.outer with
    | k :: outer => { s with candidate := k, outer }
    | [] => s
  return { s with keyAllowed := false }.emit t 1

def flowEntry : Option Scanner := do
  let s ← s.dropCandidate
  return { s with keyAllowed := true }.emit .flowEntry 1

-- Outside of brackets and braces a mark stands where a key is allowed, and opens a block.
def openMarked (start : Token) : Option Scanner :=
  if s.inFlow then some s
  else if s.keyAllowed then some (s.openBlock s.cursor.column s.tokens.size start)
  else none

def blockEntry : Option Scanner := do
  let s ← (← s.openMarked .blockSequenceStart).dropCandidate
  return { s with keyAllowed := true }.emit .blockEntry 1

def keyMark : Option Scanner := do
  let s ← (← s.openMarked .blockMappingStart).dropCandidate
  return { s with keyAllowed := !s.inFlow }.emit .key 1

def valueMark : Option Scanner :=
  match s.candidate with
  | some k =>
    let s := { s with
      tokens := s.tokens.insertIdxIfInBounds k.position .key
      candidate := none
      keyAllowed := false }
    some ((s.openBlock k.column k.position .blockMappingStart).emit .value 1)
  | none => do
    let s ← s.openMarked .blockMappingStart
    return { s with keyAllowed := !s.inFlow }.emit .value 1

def named (mk : String → Token) : Option Scanner := do
  let s ← s.saveCandidate
  let (name, cursor) ← Property.name? (s.cursor.advance 1)
  return { s.push (mk name) with cursor, keyAllowed := false }

def tag : Option Scanner := do
  let s ← s.saveCandidate
  let (t, cursor) ← Property.tag? s.inFlow s.cursor
  return { s.push (.tag t) with cursor, keyAllowed := false }

def blockScalar (style : Style) : Option Scanner := do
  let s ← s.dropCandidate
  let (text, cursor) ← BlockScalar.read (style == .literal) s.indents.head? s.cursor
  return { s.push (.scalar style (String.ofList text)) with cursor, keyAllowed := true }

def quoted (style : Style) : Option Scanner := do
  let s ← s.saveCandidate
  let (text, cursor) ← Quoted.read (style == .doubleQuoted) s.cursor
  return { s.push (.scalar style (String.ofList text)) with cursor, keyAllowed := false }

def plain : Option Scanner := do
  let s ← s.saveCandidate
  let r ← Plain.read s.inFlow ((s.indents.head?.map (· + 1)).getD 0) s.cursor
  return { s.push (.scalar .plain (String.ofList r.text)) with
    cursor := r.cursor
    keyAllowed := r.fresh }

-- The characters that cannot start a plain scalar.
def isIndicator (c : Char) : Bool :=
  isGap c || ['-', '?', ':', ',', '[', ']', '{', '}', '#', '&', '*', '!', '|', '>', '\'', '"', '%',
    '@', '`'].contains c

/-- Reads the token that starts with `x`, or the block ends before it. -/
def token (x : Char) : Option Scanner :=
  let spaced := (s.cursor.advance 1).endsOr isGap
  if s.cursor.column = 0 ∧ x = '%' then s.directive
  else if s.cursor.seesMarker '-' then s.documentLimit .documentStart
  else if s.cursor.seesMarker '.' then s.documentLimit .documentEnd
  else match x with
    | '[' => s.openFlow .flowSequenceStart
    | '{' => s.openFlow .flowMappingStart
    | ']' => s.closeFlow .flowSequenceEnd
    | '}' => s.closeFlow .flowMappingEnd
    | ',' => s.flowEntry
    | '-' => if spaced then s.blockEntry else s.plain
    | '?' => if spaced || s.inFlow then s.keyMark else s.plain
    | ':' => if spaced || s.inFlow then s.valueMark else s.plain
    | '*' => s.named .aliasOf
    | '&' => s.named .anchor
    | '!' => s.tag
    | '|' => if s.inFlow then none else s.blockScalar .literal
    | '>' => if s.inFlow then none else s.blockScalar .folded
    | '\'' => s.quoted .singleQuoted
    | '"' => s.quoted .doubleQuoted
    | x => if isIndicator x then none else s.plain

-- Reads the tokens of a text shorter than `fuel` and closes all blocks at the end of the text.
def run : (fuel : Nat) → Scanner → Option (List Token)
  | 0, _ => none
  | fuel + 1, s => do
    let s ← (skipGaps (fuel + 1) s).dropStale
    match s.cursor.peek? with
    | some x => run fuel (← (s.closeBlocks (s.cursor.column < ·)).token x)
    | none => return (← (s.closeBlocks fun _ => true).dropCandidate).tokens.toList

end Scanner

/-- The tokens of a text. -/
def tokens? (text : String) : Option (List Token) :=
  let cs := text.toList
  if cs.all isAllowed then
    let cs := normalBreaks cs
    Scanner.run (cs.length + 1) { cursor := ⟨cs, 0, 0⟩ }
  else none

end Yaml

end CircuitRouting
