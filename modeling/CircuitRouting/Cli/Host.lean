import CircuitRouting.Cli.Error

/-!
# The surroundings of a command

A command reads and writes files and prints through a host, so that what it does is defined apart
from where it runs.
-/

namespace CircuitRouting

/-- What is at a path. -/
inductive FileContent where
  | absent
  | text (s : String)
  | unreadable (reason : String)
deriving Repr, DecidableEq

structure Host (m : Type → Type) where
  read : String → m FileContent
  createDirectory : String → m (Except String Unit)
  write : String → String → m (Except String Unit)
  out : String → m Unit
  err : String → m Unit
  freshSeed : m UInt64

/-- A command: steps on a host that may fail. -/
abbrev Command (m : Type → Type) := ExceptT CliError m

namespace Host

variable {m : Type → Type} [Monad m] (h : Host m)

/-- The text of a file. -/
def readText (path : String) : Command m String := do
  match ← h.read path with
  | .text s => return s
  | .absent => throw (.fileNotFound path)
  | .unreadable reason => throw (.unreadable path reason)

def makeDirectory (path : String) : Command m Unit := do
  match ← h.createDirectory path with
  | .ok _ => return ()
  | .error reason => throw (.directory path reason)

def writeText (path text : String) : Command m Unit := do
  match ← h.write path text with
  | .ok _ => return ()
  | .error reason => throw (.unwritable path reason)

/-- A line of a report. -/
def report (line : String) : Command m Unit := h.err (line ++ "\n")

end Host

end CircuitRouting
