import CircuitRouting.Batch
import CircuitRouting.Cli.Host
import CircuitRouting.Cli.Target
import CircuitRouting.Description.Reading

/-!
# The compile command

Reads a target and circuits, compiles them, and prints or saves the programs.
-/

namespace CircuitRouting

structure CompileArgs where
  input : String
  target : Option String := none
  device : Option String := none
  output : Option String := none
  seed : Option Nat := none
  trials : Option Nat := none
  swapCap : Option Nat := none
  config : Bool := false
  diagnostics : Bool := false
deriving Repr, DecidableEq, Inhabited

namespace CompileArgs

-- What is given on the command line comes before what the target says.
def override (a : CompileArgs) (t : Target) : Target :=
  { t with
    seed := a.seed <|> t.seed
    trials := a.trials <|> t.trials
    swapCap := a.swapCap <|> t.swapCap }

end CompileArgs

namespace OutputName

-- Characters that a file name may have.
def isSafe (c : Char) : Bool := c.isAlphanum || c == '-' || c == '_'

/-- The file name of a circuit: what is not safe becomes an underscore. -/
def base (name : String) : String :=
  if name.isEmpty then "circuit" else String.ofList (name.toList.map fun c => if isSafe c then c else '_')

-- File names of circuits in the order of the batch. A name that was taken gets the position of its
-- circuit; a circuit that failed gets none.
def assign : (taken : List String) → List ((String × Bool) × Nat) → List (Option String)
  | _, [] => []
  | taken, ((_, false), _) :: rest => none :: assign taken rest
  | taken, ((name, true), i) :: rest =>
    let b := base name
    if taken.contains b then some (b ++ "_" ++ toString i) :: assign taken rest
    else some b :: assign (b :: taken) rest

-- The file names for circuits that compiled or failed.
def stems (entries : List (String × Bool)) : List (Option String) := assign [] entries.zipIdx

/-- A file in a directory. -/
def join (dir file : String) : String :=
  if dir.isEmpty || dir.endsWith "/" then dir ++ file else dir ++ "/" ++ file

end OutputName

namespace Cli

variable {m : Type → Type} [Monad m] (h : Host m)

def loadTarget (path : Option String) : Command m Target := do
  match path with
  | none => return {}
  | some path =>
    match Target.parse? path (← h.readText path) with
    | some t => return t
    | none => throw (.invalidTarget path)

def buildCircuit (d : Description) : Except CliError Circuit :=
  d.toCircuit.mapError (.invalidCircuit d.name)

def loadCircuits (path : String) : Command m (List Circuit) := do
  match Description.parseFile? (← h.readText path) with
  | none => throw (.invalidCircuits path)
  | some ds => liftExcept (ds.mapM buildCircuit)
where
  liftExcept {α : Type} (r : Except CliError α) : Command m α := ExceptT.mk (pure r)

-- The seeds for circuits, drawn only if none is fixed.
def drawSeeds (fixed : Option UInt64) : (n : Nat) → Command m (List UInt64)
  | 0 => return []
  | n + 1 => do
    let s ← match fixed with
      | some s => pure s
      | none => (h.freshSeed : m UInt64)
    return s :: (← drawSeeds fixed n)

def deviceText (o : CompileOptions) : String :=
  match o.couplingMap with
  | some c => toString c.numQubits ++ "-qubit device"
  | none => "all-to-all"

def statsLine (c : CompiledCircuit) : String :=
  let s := c.stats
  "✓ " ++ c.name ++ ": " ++ toString s.opsAfter ++ " ops, depth " ++ toString s.depth ++ ", "
    ++ toString s.cxCount ++ " cx, " ++ toString s.swaps ++ " swap(s), seed "
    ++ toString c.seed.toNat

def failureLine (name : String) (e : CompileError) : String :=
  "✗ " ++ name ++ " (" ++ e.category.name ++ " error): " ++ e.message

-- Saves a program, and its configuration if that is asked for.
def save (a : CompileArgs) (dir stem qasm config : String) : Command m Unit := do
  let path := OutputName.join dir (stem ++ ".qasm")
  h.writeText path qasm
  h.report ("  Output: " ++ path)
  if a.config then
    let path := OutputName.join dir (stem ++ ".json")
    h.writeText path config
    h.report ("  Config: " ++ path)

/-- Prints or saves a compiled circuit. -/
def emit (a : CompileArgs) (stem : String) (c : CompiledCircuit) : Command m Unit := do
  h.report (statsLine c)
  if a.diagnostics then h.err c.diagnostics
  let qasm ← match c.qasm with
    | .ok s => pure s
    | .error e => throw (.emission c.name e)
  let config := c.config.toJson.pretty
  match a.output with
  | some dir => save h a dir stem qasm config
  | none =>
    h.out ("// " ++ c.name ++ "\n" ++ qasm)
    if a.config then h.out (config ++ "\n")

-- Emits or reports an entry of a batch.
def emitEntry (a : CompileArgs) (name : String) (stem : Option String)
    (r : Except CompileError CompiledCircuit) : Command m Unit :=
  match r with
  | .ok c => emit h a (stem.getD (OutputName.base name)) c
  | .error e => h.report (failureLine name e)

/-- Emits or reports every entry of a batch, in its order. -/
def emitBatch (a : CompileArgs) (batch : Batch) : Command m Unit :=
  (batch.entries.zip (OutputName.stems batch.outcomes)).forM fun ((name, r), stem) =>
    emitEntry h a name stem r

def compile (a : CompileArgs) : Command m Unit := do
  let target ← loadTarget h a.target
  let options ← ExceptT.mk (pure ((a.override target).options a.device))
  h.report ("→ Compiling " ++ a.input ++ " for " ++ deviceText options)
  let circuits ← loadCircuits h a.input
  h.report ("  Loaded: " ++ toString circuits.length ++ " circuit(s)")
  let compiler ← ExceptT.mk (pure ((Compiler.ofOptions options).mapError .options))
  let seeds ← drawSeeds h options.seed circuits.length
  let batch := compiler.compileBatch (seeds.getD · 0) circuits
  match a.output with
  | some dir => h.makeDirectory dir
  | none => pure ()
  emitBatch h a batch
  if !batch.failures.isEmpty then
    throw (.failures batch.failures.length batch.entries.length)
  h.report "✓ Compilation complete"

end Cli

end CircuitRouting
