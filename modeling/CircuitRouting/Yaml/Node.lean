import CircuitRouting.Yaml.Token

/-!
# YAML documents

A document is a tree whose nodes may be named by anchors and taken up again by aliases.
-/

namespace CircuitRouting

namespace Yaml

/-- What stands before a node: the number of its anchor, and its tag. -/
structure Properties where
  anchor : Option Nat := none
  tag : Option String := none
deriving Repr, DecidableEq, Inhabited

namespace Properties

def isEmpty (p : Properties) : Bool := p.anchor.isNone && p.tag.isNone

end Properties

inductive Node where
  | scalar (p : Properties) (style : Style) (text : String)
  | seq (p : Properties) (items : List Node)
  | map (p : Properties) (members : List (Node × Node))
  | aliasOf (anchor : Nat)
deriving Repr, Inhabited

namespace Node

/-- What a missing node is: an empty plain scalar. -/
def missing : Node := scalar {} .plain ""

def anchor? : Node → Option Nat
  | scalar p .. | seq p _ | map p _ => p.anchor
  | aliasOf _ => none

mutual

/-- The nodes with anchors in the order of the text. -/
def anchored : Node → List (Nat × Node)
  | scalar p style text => (p.anchor.map (·, scalar p style text)).toList
  | seq p items => (p.anchor.map (·, seq p items)).toList ++ anchoredItems items
  | map p members => (p.anchor.map (·, map p members)).toList ++ anchoredMembers members
  | aliasOf _ => []

def anchoredItems : List Node → List (Nat × Node)
  | [] => []
  | n :: ns => n.anchored ++ anchoredItems ns

def anchoredMembers : List (Node × Node) → List (Nat × Node)
  | [] => []
  | (k, v) :: ms => k.anchored ++ v.anchored ++ anchoredMembers ms

end

mutual

/-- The number of scalars, aliases, and starts and ends of collections. -/
def events : Node → Nat
  | scalar .. | aliasOf _ => 1
  | seq _ items => itemsEvents items + 2
  | map _ members => membersEvents members + 2

def itemsEvents : List Node → Nat
  | [] => 0
  | n :: ns => n.events + itemsEvents ns

def membersEvents : List (Node × Node) → Nat
  | [] => 0
  | (k, v) :: ms => k.events + v.events + membersEvents ms

end

end Node

/-- A document: its root, unless the text is empty, and the nodes that aliases stand for. -/
structure Document where
  root : Option Node
  anchors : List (Nat × Node) := []

namespace Document

/-- The node that an alias stands for is the last one with its number. -/
def ofRoot (root : Node) : Document := ⟨some root, root.anchored.reverse⟩

variable (d : Document)

/-- The node itself, or the one that an alias stands for. -/
def resolve : Node → Option Node
  | .aliasOf n => d.anchors.lookup n
  | n => some n

end Document

end Yaml

end CircuitRouting
