import CircuitRouting.Yaml.Cursor
import CircuitRouting.Yaml.Token

/-!
# Anchors, tags and directives

What may stand before a node, and before a document. A tag keeps the octets of its percent escapes, one
character for each.
-/

namespace CircuitRouting

namespace Yaml

namespace Property

-- The characters that may follow a name right away.
def endsName (c : Char) : Bool :=
  isGap c || ['?', ':', ',', ']', '}', '%', '@', '`'].contains c

/-- The name of an anchor or an alias, after its mark. -/
def name? (c : Cursor) : Option (String × Cursor) :=
  let name := c.taken isNameChar
  let c := c.skip isNameChar
  if name.isEmpty ∨ !c.endsOr endsName then none else some (String.ofList name, c)

-- The characters of tags; between angle brackets there are three more.
def isTagChar (verbatim : Bool) (c : Char) : Bool :=
  isNameChar c || [';', '/', '?', ':', '@', '&', '=', '+', '$', '.', '!', '~', '*', '\'', '(',
    ')'].contains c || (verbatim && [',', '[', ']'].contains c)

-- How many octets a character of more than one has, by its first octet.
def octetCount? (n : Nat) : Option Nat :=
  if n < 0x80 then some 1
  else if n < 0xc0 then none
  else if n < 0xe0 then some 2
  else if n < 0xf0 then some 3
  else if n < 0xf8 then some 4
  else none

-- The next escaped octet.
def octet? : List Char → Option (Nat × List Char)
  | '%' :: a :: b :: cs => (digits? 16 [a, b]).map (·, cs)
  | _ => none

-- Escaped octets after the first of a character.
def octetsAfter? : (count : Nat) → List Char → Option (List Char × List Char)
  | 0, cs => some ([], cs)
  | count + 1, cs => do
    let (n, cs) ← octet? cs
    if n < 0x80 ∨ 0xc0 ≤ n then none
    let (os, cs) ← octetsAfter? count cs
    return (Char.ofNat n :: os, cs)

-- The escaped octets of one character.
def escapedChar? (cs : List Char) : Option (List Char × List Char) := do
  let (n, cs) ← octet? cs
  let (os, cs) ← octetsAfter? ((← octetCount? n) - 1) cs
  return (Char.ofNat n :: os, cs)

-- The characters of a tag, with their escapes, at most `fuel` of them.
def tagText? (verbatim : Bool) : (fuel : Nat) → List Char → Option (List Char × List Char)
  | 0, _ => none
  | fuel + 1, cs =>
    match cs with
    | '%' :: _ => do
      let (os, cs) ← escapedChar? cs
      let (ts, cs) ← tagText? verbatim fuel cs
      return (os ++ ts, cs)
    | c :: rest =>
      if isTagChar verbatim c then (tagText? verbatim fuel rest).map fun (ts, cs) => (c :: ts, cs)
      else some ([], cs)
    | [] => some ([], [])

-- The characters of a tag after those in `head`; there has to be at least one. The tag ends at a
-- zero octet.
def tagEnd? (verbatim : Bool) (head : List Char) (c : Cursor) : Option (String × Cursor) := do
  let (text, rest) ← tagText? verbatim (c.rest.length + 1) c.rest
  if head.isEmpty ∧ rest.length = c.rest.length then none
  let text := (head.drop 1 ++ text).takeWhile (· != '\x00')
  return (String.ofList text, c.advance (c.rest.length - rest.length))

-- An exclamation mark, a name, and another exclamation mark if one follows.
def handle (c : Cursor) : List Char × Cursor :=
  let name := (c.advance 1).taken isNameChar
  let c := (c.advance 1).skip isNameChar
  if c.sees '!' then ('!' :: name ++ ['!'], c.advance 1) else ('!' :: name, c)

-- A tag between angle brackets.
def verbatimTag? (c : Cursor) : Option (TagName × Cursor) := do
  let (suffix, c) ← tagEnd? true [] (c.advance 2)
  if c.sees '>' then return (⟨"", suffix⟩, c.advance 1) else none

-- A tag with a handle. What looks like a name without a second mark belongs to the rest, and a lone
-- mark is the tag itself.
def shorthandTag? (c : Cursor) : Option (TagName × Cursor) := do
  let (h, c) := handle c
  if 2 ≤ h.length ∧ h.getLast? = some '!' then
    let (suffix, c) ← tagEnd? false [] c
    return (⟨String.ofList h, suffix⟩, c)
  else
    let (suffix, c) ← tagEnd? false h c
    return (if suffix.isEmpty then ⟨"", "!"⟩ else ⟨"!", suffix⟩, c)

/-- The tag at the cursor. -/
def tag? (inFlow : Bool) (c : Cursor) : Option (TagName × Cursor) := do
  let (t, c) ← if (c.advance 1).sees '<' then verbatimTag? c else shorthandTag? c
  if c.endsOr isGap || (inFlow && c.sees ',') then return (t, c) else none

-- A number of at most nine digits.
def versionPart? (c : Cursor) : Option (Nat × Cursor) := do
  let ds := c.taken Char.isDigit
  if 9 < ds.length then none
  return (← digits? 10 ds, c.skip Char.isDigit)

def version? (c : Cursor) : Option (Token × Cursor) := do
  let (major, c) ← versionPart? (c.skip isBlank)
  if !c.sees '.' then none
  let (minor, c) ← versionPart? (c.advance 1)
  return (.version major minor, c)

def tagHandle? (c : Cursor) : Option (Token × Cursor) := do
  let c := c.skip isBlank
  if !c.sees '!' then none
  let (h, c) := handle c
  if h ≠ ['!'] ∧ h.getLast? ≠ some '!' then none
  if !c.peek?.any isBlank then none
  let (meaning, c) ← tagEnd? true [] (c.skip isBlank)
  if c.endsOr isGap then return (.tagHandle (String.ofList h) meaning, c) else none

/-- The directive at the cursor, with its line. -/
def directive? (c : Cursor) : Option (Token × Cursor) := do
  let c := c.advance 1
  let name := String.ofList (c.taken isNameChar)
  let c := c.skip isNameChar
  if !c.endsOr isGap then none
  let (token, c) ← if name = "YAML" then version? c else if name = "TAG" then tagHandle? c else none
  return (token, ← c.endLine?)

end Property

end Yaml

end CircuitRouting
