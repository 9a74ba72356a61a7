import CircuitRouting.Yaml.Cursor

/-!
# Block scalars

Lines that are indented more than what they belong to. A literal scalar keeps its line breaks; a
folded one joins lines that do not start with a blank. A sign tells what becomes of the line breaks at
the end: all are dropped, all are kept, or else one is kept.
-/

namespace CircuitRouting

namespace Yaml

namespace BlockScalar

inductive Chomping where
  | strip
  | clip
  | keep
deriving Repr, DecidableEq

/-- What may follow the mark of a block scalar: a chomping sign and an indentation, if given. -/
structure Header where
  chomping : Chomping := .clip
  indentation : Nat := 0
deriving Repr

def chomping? (c : Char) : Option Chomping :=
  if c = '+' then some .keep else if c = '-' then some .strip else none

-- A digit other than zero; a zero is refused.
def increment? : Option Char → Option (Option Nat)
  | some c => if c = '0' then none else some (if c.isDigit then digits? 10 [c] else none)
  | none => some none

-- The sign and the digit after the mark, in either order.
def header? (c : Cursor) : Option (Header × Cursor) := do
  match c.peek?.bind chomping? with
  | some chomping =>
    let c := c.advance 1
    match ← increment? c.peek? with
    | some n => return (⟨chomping, n⟩, c.advance 1)
    | none => return (⟨chomping, 0⟩, c)
  | none =>
    match ← increment? c.peek? with
    | some n =>
      let c := c.advance 1
      match c.peek?.bind chomping? with
      | some chomping => return (⟨chomping, n⟩, c.advance 1)
      | none => return (⟨.clip, n⟩, c)
    | none => return ({}, c)

/-- The line breaks before the next line that is not empty, and the widest indentation among them. -/
structure Breaks where
  breaks : List Char
  widest : Nat
  cursor : Cursor

-- Reads indentation and line breaks. Without a known indentation (zero) all spaces belong to it, and
-- no tab may stand in it.
def breaks? (indent : Nat) : (fuel : Nat) → (seen : List Char) → (widest : Nat) → Cursor →
    Option Breaks
  | 0, _, _, _ => none
  | fuel + 1, seen, widest, c => do
    let spaces := (c.taken (· == ' ')).length
    let c := c.advance (if indent = 0 then spaces else min spaces (indent - c.column))
    let widest := max widest c.column
    if c.sees '\t' && (indent = 0 || c.column < indent) then none
    match c.rest with
    | b :: _ =>
      if isBreak b then breaks? indent fuel (seen ++ [b]) widest c.breakLine
      else return ⟨seen, widest, c⟩
    | [] => return ⟨seen, widest, c⟩

/-- The lines so far: their text, the break after the last, and whether that started with a blank. -/
structure Lines where
  text : List Char := []
  last : List Char := []
  startsBlank : Bool := false

-- What joins the lines so far to a line after some empty ones.
def joint (literal : Bool) (ls : Lines) (breaks : List Char) (startsBlank : Bool) : List Char :=
  if !literal && ls.last == ['\n'] && !ls.startsBlank && !startsBlank then
    if breaks.isEmpty then [' '] else breaks
  else ls.last ++ breaks

-- Reads the lines at column `indent`, at most `fuel` of them; `breaks` stand before the first.
def lines? (literal : Bool) (indent : Nat) : (fuel : Nat) → Lines → (breaks : List Char) → Cursor →
    Option (Lines × List Char × Cursor)
  | 0, _, _, _ => none
  | fuel + 1, ls, breaks, c =>
    if c.column ≠ indent ∨ c.rest.isEmpty then some (ls, breaks, c)
    else do
      let startsBlank := c.peek?.any isBlank
      let line := c.taken (!isBreak ·)
      let c := c.skip (!isBreak ·)
      let ls : Lines := {
        text := ls.text ++ joint literal ls breaks startsBlank ++ line
        last := c.rest.take 1
        startsBlank }
      let b ← breaks? indent (c.rest.length + 1) [] 0 c.breakLine
      lines? literal indent fuel ls b.breaks b.cursor

/-- The block scalar whose mark is at the cursor, in a block that starts at column `parent?`. -/
def read (literal : Bool) (parent? : Option Nat) (c : Cursor) : Option (List Char × Cursor) := do
  let (header, c) ← header? (c.advance 1)
  let c ← c.endLine?
  let given := if header.indentation = 0 then 0 else parent?.getD 0 + header.indentation
  let b ← breaks? given (c.rest.length + 1) [] 0 c
  let least := max 1 ((parent?.map (· + 1)).getD 0)
  let indent := if given = 0 then max b.widest least else given
  let (ls, breaks, c) ← lines? literal indent (b.cursor.rest.length + 1) {} b.breaks b.cursor
  let tail := match header.chomping with
    | .strip => []
    | .clip => ls.last
    | .keep => ls.last ++ breaks
  return (ls.text ++ tail, c)

end BlockScalar

end Yaml

end CircuitRouting
