import CircuitRouting.Cli.FileTree

/-!
# Rehearsals

A host without a machine: files are in memory and what is printed is kept, so that a command is a
function from one state to the next.
-/

namespace CircuitRouting

structure Rehearsal where
  tree : FileTree
  out : String := ""
  err : String := ""
deriving Repr

namespace Rehearsal

-- Changes the tree, or says why not.
def change (f : FileTree → Except PathError FileTree) : StateM Rehearsal (Except String Unit) := do
  let s ← get
  match f s.tree with
  | .ok tree => set { s with tree }; return .ok ()
  | .error e => return .error e.message

/-- The host of a rehearsal. Its fresh seed is always zero. -/
def host : Host (StateM Rehearsal) where
  read path := return (← get).tree.read path
  createDirectory path := change (·.ensure path)
  write path text := change (·.write path text)
  out text := modify fun s => { s with out := s.out ++ text }
  err text := modify fun s => { s with err := s.err ++ text }
  freshSeed := return 0

end Rehearsal

end CircuitRouting
