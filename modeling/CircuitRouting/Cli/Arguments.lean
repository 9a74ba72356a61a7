import CircuitRouting.Cli.Compile

/-!
# Arguments

The command line is a command with options: `compile` or `version`. Long options take their value
after `=` or as the next argument, short ones also right after the letter.
-/

namespace CircuitRouting

/-- What the arguments ask for. -/
inductive Request where
  | compile (args : CompileArgs)
  | version
  | banner
  | help
  | invalid
deriving Repr, DecidableEq, Inhabited

namespace Arguments

/-- The commands that take options. -/
inductive Scope where
  | top
  | compile
  | version
deriving Repr, DecidableEq

/-- What an option does. -/
inductive Flag where
  | verbose
  | help
  | banner
  | config
  | value (name : String)
deriving Repr, DecidableEq

-- The options of a command by their long names.
def long? (scope : Scope) (name : String) : Option Flag :=
  if name = "verbose" then some .verbose
  else if name = "help" then some .help
  else
    match scope with
    | .top => if name = "version" then some .banner else none
    | .version => none
    | .compile =>
      if name = "config" then some .config
      else if ["input", "target", "device", "output", "seed", "trials", "swap-cap"].contains name
      then some (.value name)
      else none

-- The options of a command by their letters.
def short? (scope : Scope) (c : Char) : Option Flag :=
  if c = 'v' then some .verbose
  else if c = 'h' then some .help
  else
    match scope with
    | .top => if c = 'V' then some .banner else none
    | .version => none
    | .compile =>
      match c with
      | 'i' => some (.value "input")
      | 't' => some (.value "target")
      | 'd' => some (.value "device")
      | 'o' => some (.value "output")
      | _ => none

/-- What has been read so far. -/
structure Collected where
  scope : Scope := .top
  verbose : Bool := false
  config : Bool := false
  values : List (String × String) := []
deriving Repr

-- A value option is given once, and a number has to be one.
def Collected.add? (s : Collected) (name value : String) : Option Collected :=
  let isNumber := ["seed", "trials", "swap-cap"].contains name
  if (s.values.lookup name).isSome then none
  else if isNumber && !(Whole.read UInt64.size value).toBool then none
  else some { s with values := (name, value) :: s.values }

-- The next argument as a value: it must not look like an option.
def asValue? : List Char → Option String
  | ['-'] => some "-"
  | '-' :: _ => none
  | cs => some (String.ofList cs)

/-- Reads a cluster of letters; a letter that takes a value takes the rest of it. -/
def letters (s : Collected) : List Char → Except Request (Collected × Option String)
  | [] => .ok (s, none)
  | c :: rest =>
    match short? s.scope c with
    | none => .error .invalid
    | some .help => .error .help
    | some .banner => .error .banner
    | some .verbose => letters { s with verbose := true } rest
    | some .config => if s.config then .error .invalid else letters { s with config := true } rest
    | some (.value name) =>
      match rest with
      | [] => .ok (s, some name)
      | '=' :: value => take name value
      | value => take name value
where
  take (name : String) (value : List Char) : Except Request (Collected × Option String) :=
    match s.add? name (String.ofList value) with
    | some s => .ok (s, none)
    | none => .error .invalid

-- Reads a long option; its name is returned if its value is still to come.
def longOption (s : Collected) (cs : List Char) : Except Request (Collected × Option String) :=
  let name := String.ofList (cs.takeWhile (· != '='))
  let value := match cs.dropWhile (· != '=') with
    | '=' :: v => some (String.ofList v)
    | _ => none
  match long? s.scope name, value with
  | some .help, none => .error .help
  | some .banner, none => .error .banner
  | some .verbose, none => .ok ({ s with verbose := true }, none)
  | some .config, none =>
    if s.config then .error .invalid else .ok ({ s with config := true }, none)
  | some (.value name), none => .ok (s, some name)
  | some (.value name), some v =>
    match s.add? name v with
    | some s => .ok (s, none)
    | none => .error .invalid
  | _, _ => .error .invalid

/-- A word on its own names the command. -/
def command (s : Collected) (word : String) : Except Request Collected :=
  match s.scope with
  | .top =>
    if word = "compile" then .ok { s with scope := .compile }
    else if word = "version" then .ok { s with scope := .version }
    else .error .invalid
  | _ => .error .invalid

/-- Reads one argument; `waiting` is the option whose value it is. -/
def step (s : Collected) (waiting : Option String) (arg : String) :
    Except Request (Collected × Option String) :=
  match waiting with
  | some name =>
    match asValue? arg.toList with
    | some v =>
      match s.add? name v with
      | some s => .ok (s, none)
      | none => .error .invalid
    | none => .error .invalid
  | none =>
    match arg.toList with
    | '-' :: '-' :: cs => longOption s cs
    | ['-'] => .error .invalid
    | '-' :: cs => letters s cs
    | _ => (command s arg).map (·, none)

-- The request for help on the program or on one of its commands.
def helpRequest (topics : List String) : Request :=
  match topics with
  | [] => .help
  | [topic] => if ["compile", "version", "help"].contains topic then .help else .invalid
  | _ => .invalid

-- Reads the arguments; after two dashes nothing may follow.
def collect : (s : Collected) → (waiting : Option String) → List String → Except Request Collected
  | s, none, [] => .ok s
  | _, some _, [] => .error .invalid
  | s, waiting, arg :: rest =>
    if waiting = none ∧ arg = "--" then if rest.isEmpty then .ok s else .error .invalid
    else if waiting = none ∧ s.scope = .top ∧ arg = "help" then .error (helpRequest rest)
    else
      match step s waiting arg with
      | .ok (s, waiting) => collect s waiting rest
      | .error r => .error r

/-- The number given for an option. -/
def Collected.number? (s : Collected) (name : String) : Option Nat :=
  (s.values.lookup name).bind fun v => (Whole.read UInt64.size v).toOption

def Collected.request (s : Collected) : Request :=
  match s.scope with
  | .top => .invalid
  | .version => .version
  | .compile =>
    match s.values.lookup "input" with
    | none => .invalid
    | some input => .compile {
        input := input
        target := s.values.lookup "target"
        device := s.values.lookup "device"
        output := s.values.lookup "output"
        seed := s.number? "seed"
        trials := s.number? "trials"
        swapCap := s.number? "swap-cap"
        config := s.config
        diagnostics := s.verbose }

/-- What a command line asks for. -/
def parse (args : List String) : Request :=
  match collect {} none args with
  | .ok s => s.request
  | .error r => r

end Arguments

end CircuitRouting
