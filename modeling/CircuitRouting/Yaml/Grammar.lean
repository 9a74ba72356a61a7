import CircuitRouting.Yaml.Node
import CircuitRouting.Yaml.Scanner

/-!
# From tokens to documents

A text holds at most one document. Anchors are numbered in the order of the text; an anchor gets the
number of names before it, so that a name that is used again may share its number with a later one.
-/

namespace CircuitRouting

namespace Yaml

namespace Grammar

/-- The meanings of tag handles. -/
abbrev Handles := List (String × String)

/-- The handles that every document knows. -/
def standardHandles : Handles := [("!", "!"), ("!!", "tag:yaml.org,2002:")]

-- The tag that a name stands for.
def tag? (handles : Handles) (t : TagName) : Option String :=
  if t.handle.isEmpty then some t.suffix else (handles.lookup t.handle).map (· ++ t.suffix)

/-- A token whose names of anchors are numbers. -/
inductive Lexeme where
  | anchor (n : Nat)
  | aliasOf (n : Nat)
  | token (t : Token)
deriving Repr, DecidableEq

-- Numbers the anchors; an alias has to follow an anchor of its name.
def lexemes? : (known : List (String × Nat)) → List Token → Option (List Lexeme)
  | _, [] => some []
  | known, .anchor name :: ts =>
    let n := known.length
    let others := known.filter fun k => k.1 != name
    (lexemes? ((name, n) :: others) ts).map (.anchor n :: ·)
  | known, .aliasOf name :: ts => do
    let n ← known.lookup name
    return .aliasOf n :: (← lexemes? known ts)
  | known, t :: ts => (lexemes? known ts).map (.token t :: ·)

-- An anchor and a tag, each at most once and in either order.
def properties? (handles : Handles) : List Lexeme → Option (Properties × List Lexeme)
  | .anchor n :: .token (.tag t) :: ls => (tag? handles t).map fun tag => (⟨some n, some tag⟩, ls)
  | .token (.tag t) :: .anchor n :: ls => (tag? handles t).map fun tag => (⟨some n, some tag⟩, ls)
  | .anchor n :: ls => some (⟨some n, none⟩, ls)
  | .token (.tag t) :: ls => (tag? handles t).map fun tag => (⟨none, some tag⟩, ls)
  | ls => some ({}, ls)

/-- The next token is one of some tokens. -/
def sees (ts : List Token) : List Lexeme → Bool
  | .token t :: _ => ts.contains t
  | _ => false

-- The tokens before which a key or a value of a block mapping is missing.
def endsBlockPart : List Token := [.key, .value, .blockEnd]

-- The tokens before which an entry of a sequence without indentation is missing.
def endsEntry : List Token := .blockEntry :: endsBlockPart

-- The tokens before which a key, or a value, inside brackets or braces is missing.
def endsFlowKey (close : Token) : List Token := [.value, .flowEntry, close]

def endsFlowValue (close : Token) : List Token := [.flowEntry, close]

mutual

/-- The node that the tokens start with; in `block` context it may be a block collection. -/
def node? (handles : Handles) : (fuel : Nat) → (block indentless : Bool) → List Lexeme →
    Option (Node × List Lexeme)
  | 0, _, _, _ => none
  | _, _, _, .aliasOf n :: ls => some (.aliasOf n, ls)
  | fuel + 1, block, indentless, ls => do
    let (p, ls) ← properties? handles ls
    match ls with
    | .token (.scalar style text) :: rest =>
      return (.scalar p style text, rest)
    | .token .flowSequenceStart :: rest =>
      (flowItems? handles fuel true rest).map fun (ns, rest) => (.seq p ns, rest)
    | .token .flowMappingStart :: rest =>
      (flowMembers? handles fuel true rest).map fun (ms, rest) => (.map p ms, rest)
    | rest =>
      if indentless && sees [.blockEntry] rest then
        (entries? handles fuel true rest).map fun (ns, rest) => (.seq p ns, rest)
      else if block && sees [.blockSequenceStart] rest then
        (entries? handles fuel false (rest.drop 1)).map fun (ns, rest) => (.seq p ns, rest)
      else if block && sees [.blockMappingStart] rest then
        (blockMembers? handles fuel (rest.drop 1)).map fun (ms, rest) => (.map p ms, rest)
      else if p.isEmpty then none
      else some (.scalar p .plain "", rest)

-- A node, or a missing one before some tokens.
def part? (handles : Handles) : (fuel : Nat) → (block indentless : Bool) → (ends : List Token) →
    List Lexeme → Option (Node × List Lexeme)
  | 0, _, _, _, _ => none
  | fuel + 1, block, indentless, ends, ls =>
    if sees ends ls then some (.missing, ls) else node? handles fuel block indentless ls

-- The entries of a block sequence and, unless it has no indentation of its own, its end.
def entries? (handles : Handles) : (fuel : Nat) → (indentless : Bool) → List Lexeme →
    Option (List Node × List Lexeme)
  | 0, _, _ => none
  | fuel + 1, indentless, .token .blockEntry :: ls => do
    let ends := if indentless then endsEntry else [.blockEntry, .blockEnd]
    let (n, ls) ← part? handles fuel true false ends ls
    let (ns, ls) ← entries? handles fuel indentless ls
    return (n :: ns, ls)
  | _, true, ls => some ([], ls)
  | _, false, .token .blockEnd :: ls => some ([], ls)
  | _, false, _ => none

-- The members of a block mapping and its end.
def blockMembers? (handles : Handles) : (fuel : Nat) → List Lexeme →
    Option (List (Node × Node) × List Lexeme)
  | 0, _ => none
  | fuel + 1, .token .key :: ls => do
    let (k, ls) ← part? handles fuel true true endsBlockPart ls
    let (v, ls) ← match ls with
      | .token .value :: ls => part? handles fuel true true endsBlockPart ls
      | ls => some (.missing, ls)
    let (ms, ls) ← blockMembers? handles fuel ls
    return ((k, v) :: ms, ls)
  | _, .token .blockEnd :: ls => some ([], ls)
  | _, _ => none

-- A key, after its token, and its value, if there is one.
def pair? (handles : Handles) : (fuel : Nat) → (close : Token) → List Lexeme →
    Option ((Node × Node) × List Lexeme)
  | 0, _, _ => none
  | fuel + 1, close, ls => do
    let (k, ls) ← part? handles fuel false false (endsFlowKey close) ls
    let (v, ls) ← match ls with
      | .token .value :: ls => part? handles fuel false false (endsFlowValue close) ls
      | ls => some (.missing, ls)
    return ((k, v), ls)

-- The items between brackets and the closing one; a pair is a mapping.
def flowItems? (handles : Handles) : (fuel : Nat) → (first : Bool) → List Lexeme →
    Option (List Node × List Lexeme)
  | 0, _, _ => none
  | _, _, .token .flowSequenceEnd :: ls => some ([], ls)
  | fuel + 1, false, .token .flowEntry :: ls =>
    if sees [.flowSequenceEnd] ls then some ([], ls.drop 1) else flowItems? handles fuel true ls
  | _, false, _ => none
  | fuel + 1, true, .token .key :: ls => do
    let (m, ls) ← pair? handles fuel .flowSequenceEnd ls
    let (ns, ls) ← flowItems? handles fuel false ls
    return (.map {} [m] :: ns, ls)
  | fuel + 1, true, ls => do
    let (n, ls) ← node? handles fuel false false ls
    let (ns, ls) ← flowItems? handles fuel false ls
    return (n :: ns, ls)

-- The members between braces and the closing one; a node without a colon is a key.
def flowMembers? (handles : Handles) : (fuel : Nat) → (first : Bool) → List Lexeme →
    Option (List (Node × Node) × List Lexeme)
  | 0, _, _ => none
  | _, _, .token .flowMappingEnd :: ls => some ([], ls)
  | fuel + 1, false, .token .flowEntry :: ls =>
    if sees [.flowMappingEnd] ls then some ([], ls.drop 1) else flowMembers? handles fuel true ls
  | _, false, _ => none
  | fuel + 1, true, .token .key :: ls => do
    let (m, ls) ← pair? handles fuel .flowMappingEnd ls
    let (ms, ls) ← flowMembers? handles fuel false ls
    return (m :: ms, ls)
  | fuel + 1, true, ls => do
    let (k, ls) ← node? handles fuel false false ls
    let (ms, ls) ← flowMembers? handles fuel false ls
    return ((k, .missing) :: ms, ls)

end

-- The directives before a document: at most one version, and each handle at most once.
def directives? : (versioned : Bool) → Handles → List Lexeme → Option (Handles × List Lexeme)
  | versioned, handles, .token (.version major minor) :: ls =>
    if versioned || major ≠ 1 || !(minor = 1 || minor = 2) then none
    else directives? true handles ls
  | versioned, handles, .token (.tagHandle handle meaning) :: ls =>
    if (handles.lookup handle).isSome then none
    else directives? versioned ((handle, meaning) :: handles) ls
  | _, handles, ls => some (handles, ls)

def startsDirective : List Lexeme → Bool
  | .token (.version ..) :: _ | .token (.tagHandle ..) :: _ => true
  | _ => false

-- The root of a document after the line that begins it.
def content? (handles : Handles) (ls : List Lexeme) : Option (Node × List Lexeme) :=
  if ls.isEmpty || startsDirective ls || sees [.documentStart, .documentEnd] ls then
    some (.missing, ls)
  else node? handles (3 * ls.length + 3) true false ls

/-- The document that the tokens are. -/
def document? : List Lexeme → Option Document
  | [] => some ⟨none, []⟩
  | ls => do
    let (root, ls) ← if startsDirective ls || sees [.documentStart] ls then do
        let (handles, ls) ← directives? false [] ls
        if sees [.documentStart] ls then content? (handles ++ standardHandles) (ls.drop 1) else none
      else node? standardHandles (3 * ls.length + 3) true false ls
    if ls.all (· == .token .documentEnd) then return .ofRoot root else none

end Grammar

/-- Reads a text. -/
def parse? (text : String) : Option Document := do
  Grammar.document? (← Grammar.lexemes? [] (← tokens? text))

end Yaml

end CircuitRouting
