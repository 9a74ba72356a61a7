import CircuitRouting.Yaml.Scalar.Gap

/-!
# Plain scalars

Words without quotes. A plain scalar ends before a colon that is followed by a blank, before a comment,
at the end of its block, and inside brackets and braces before an indicator of them.
-/

namespace CircuitRouting

namespace Yaml

namespace Plain

def isFlowIndicator (c : Char) : Bool :=
  c = ',' || c = '[' || c = ']' || c = '{' || c = '}'

-- The next word of a plain scalar and what follows it. Inside brackets and braces a colon may not
-- stand right before an indicator of them or a question mark.
def word (inFlow : Bool) : List Char → Option (List Char × List Char)
  | [] => some ([], [])
  | c :: cs =>
    if isGap c then some ([], c :: cs)
    else if c == ':' && inFlow && cs.head?.any fun x => isFlowIndicator x || x == '?' then none
    else if c == ':' && cs.head?.all isGap then some ([], c :: cs)
    else if inFlow && isFlowIndicator c then some ([], c :: cs)
    else (word inFlow cs).map fun (w, rest) => (c :: w, rest)

/-- A plain scalar that was read: its text, whether lines ended after it, and what follows. -/
structure Result where
  text : List Char
  fresh : Bool
  cursor : Cursor

-- Reads words of a scalar in a block that starts at column `indent`, at most `fuel` of them. `gap`
-- is what stands before the first.
def readFrom (inFlow : Bool) (indent : Nat) : (fuel : Nat) → (seen : List Char) → Gap → Cursor →
    Option Result
  | 0, _, _, _ => none
  | fuel + 1, seen, gap, c => do
    let stop : Result := ⟨seen, !gap.breaks.isEmpty, c⟩
    if c.seesDocumentLimit || c.sees '#' then return stop
    let (w, rest) ← word inFlow c.rest
    if w.isEmpty then return stop
    let seen := seen ++ gap.text ++ w
    let (gap, c) ← Gap.read indent false { c with rest, column := c.column + w.length }
    if !gap.isEmpty && (inFlow || indent ≤ c.column) then readFrom inFlow indent fuel seen gap c
    else return ⟨seen, !gap.breaks.isEmpty, c⟩

/-- The plain scalar at the cursor. -/
def read (inFlow : Bool) (indent : Nat) (c : Cursor) : Option Result :=
  readFrom inFlow indent (c.rest.length + 1) [] {} c

end Plain

end Yaml

end CircuitRouting
