import CircuitRouting.Cli.Arguments

/-!
# The program

What a command line does, and the code it ends with.
-/

namespace CircuitRouting

namespace Cli

def versionNumber : String := "0.3.0"

-- The answer of the version command.
def versionLines : List String := [
  "qmap v" ++ versionNumber ++ " - routing compiler for quantum circuits",
  "",
  "Components:",
  "  qmap-ir       Circuit intermediate representation",
  "  qmap-compile  Layout, routing and rewrite passes",
  "  qmap-qasm     OpenQASM 2.0 emitter",
  "  qmap-cli      Command-line interface",
  "",
  "License: Apache-2.0"]

def versionText : String := String.join (versionLines.map (· ++ "\n"))

def usage : String :=
  "Usage: qmap [-v] compile -i FILE [-t FILE] [-d DEVICE] [-o DIR] [--seed N] [--trials N]"
    ++ " [--swap-cap N] [--config]\n       qmap version\n"

variable {m : Type → Type} [Monad m] (h : Host m)

/-- Runs the program; the result is its exit code. -/
def run (args : List String) : m UInt32 := do
  match Arguments.parse args with
  | .invalid => h.err usage; return 2
  | .help => h.out usage; return 0
  | .banner => h.out ("qmap " ++ versionNumber ++ "\n"); return 0
  | .version => h.out versionText; return 0
  | .compile a =>
    match ← (compile h a).run with
    | .ok _ => return 0
    | .error e => h.err ("Error: " ++ e.message ++ "\n"); return 1

end Cli

end CircuitRouting
