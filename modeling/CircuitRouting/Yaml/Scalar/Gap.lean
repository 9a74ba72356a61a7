import CircuitRouting.Yaml.Cursor

/-!
# Gaps inside scalars

Blanks and line breaks between two words of a plain or quoted scalar. Blanks around line breaks count
for nothing. A single line feed is a space; of more than one the first is dropped.
-/

namespace CircuitRouting

namespace Yaml

structure Gap where
  blanks : List Char := []
  breaks : List Char := []
deriving Repr

namespace Gap

def isEmpty (g : Gap) : Bool := g.blanks.isEmpty && g.breaks.isEmpty

/-- The text that a gap stands for. -/
def text (g : Gap) : List Char :=
  match g.breaks with
  | [] => g.blanks
  | b :: bs => if b != '\n' then b :: bs else if bs.isEmpty then [' '] else bs

-- Reads blanks and line breaks. After a line break (`fresh`) blanks are skipped, and no tab may
-- stand before column `tabLimit`.
def readFrom (tabLimit : Nat) : (fresh : Bool) → Gap → (line column : Nat) → List Char →
    Option (Gap × Cursor)
  | _, g, line, column, [] => some (g, ⟨[], line, column⟩)
  | fresh, g, line, column, c :: cs =>
    if isBlank c then
      if fresh && c == '\t' && column < tabLimit then none
      else
        let g := if fresh then g else { g with blanks := g.blanks ++ [c] }
        readFrom tabLimit fresh g line (column + 1) cs
    else if isBreak c then readFrom tabLimit true ⟨[], g.breaks ++ [c]⟩ (line + 1) 0 cs
    else some (g, ⟨c :: cs, line, column⟩)

/-- The gap at the cursor. -/
def read (tabLimit : Nat) (fresh : Bool) (c : Cursor) : Option (Gap × Cursor) :=
  readFrom tabLimit fresh {} c.line c.column c.rest

end Gap

end Yaml

end CircuitRouting
