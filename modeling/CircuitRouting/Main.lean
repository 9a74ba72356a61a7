import CircuitRouting.Cli.FileTree
import CircuitRouting.Cli.Run

/-!
# The executable

The host of the program is the machine it runs on.
-/

namespace CircuitRouting

-- The number of a failure, which some actions report as a negative one.
def number? : IO.Error → Option UInt32
  | .noFileOrDirectory _ code _ => some code
  | .alreadyExists _ code _ => some code
  | .inappropriateType _ code _ => some code
  | .invalidArgument _ code _ => some code
  | _ => none

def pathError? (e : IO.Error) : Option PathError :=
  match (number? e).map fun code => if code < 0x80000000 then code else 0 - code with
  | some 2 => some .missing
  | some 17 => some .taken
  | some 20 => some .notDirectory
  | some 21 => some .isDirectory
  | some 36 => some .nameTooLong
  | _ => none

def reason (e : IO.Error) : String :=
  match pathError? e with
  | some e => e.message
  | none => toString e

/-- The result of an action on files, or the reason why it fails. -/
def attempt {α : Type} (action : IO α) : IO (Except String α) := do
  try
    return .ok (← action)
  catch e =>
    return .error (reason e)

-- A file that cannot be found is absent.
def readContent (path : String) : IO FileContent := do
  try
    return .text (← IO.FS.readFile path)
  catch e =>
    match pathError? e with
    | some .missing | some .notDirectory | some .nameTooLong => return .absent
    | _ => return .unreadable (reason e)

-- The machine that the program runs on.
def machine : Host IO where
  read := readContent
  createDirectory path := attempt (IO.FS.createDirAll path)
  write path text := attempt (IO.FS.writeFile path text)
  out text := do (← IO.getStdout).putStr text
  err text := do (← IO.getStderr).putStr text
  freshSeed := do return (← IO.rand 0 (UInt64.size - 1)).toUInt64

end CircuitRouting

def main (args : List String) : IO UInt32 :=
  CircuitRouting.Cli.run CircuitRouting.machine args
