/-!
# Tokens of YAML

Indentation shows in tokens that start and end block collections, and a key without a mark of its own
gets one, so that the grammar needs neither places nor blanks.
-/

namespace CircuitRouting

namespace Yaml

/-- How a scalar is written. -/
inductive Style where
  | plain
  | singleQuoted
  | doubleQuoted
  | literal
  | folded
deriving Repr, DecidableEq, Inhabited

/-- A tag as written: a handle, which may be empty, and what follows it. -/
structure TagName where
  handle : String
  suffix : String
deriving Repr, DecidableEq

inductive Token where
  | version (major minor : Nat)
  | tagHandle (handle meaning : String)
  | documentStart
  | documentEnd
  | blockSequenceStart
  | blockMappingStart
  | blockEnd
  | flowSequenceStart
  | flowSequenceEnd
  | flowMappingStart
  | flowMappingEnd
  | blockEntry
  | flowEntry
  | key
  | value
  | anchor (name : String)
  | aliasOf (name : String)
  | tag (name : TagName)
  | scalar (style : Style) (text : String)
deriving Repr, DecidableEq

end Yaml

end CircuitRouting
