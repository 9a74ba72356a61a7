import CircuitRouting.Cli.Host

/-!
# Files in memory

A tree of directories and text files. A path is followed part by part: `.` stays where it is, `..`
goes up, a name goes down, and each of them starts from a directory. What lies above the tree is
taken to be directories with nothing else in them.
-/

namespace CircuitRouting

/-- Why a path leads nowhere, or cannot be used as asked. -/
inductive PathError where
  | missing
  | taken
  | notDirectory
  | isDirectory
  | nameTooLong
  | zeroCharacter
deriving Repr, DecidableEq

namespace PathError

def message : PathError → String
  | missing => "No such file or directory (os error 2)"
  | taken => "File exists (os error 17)"
  | notDirectory => "Not a directory (os error 20)"
  | isDirectory => "Is a directory (os error 21)"
  | nameTooLong => "File name too long (os error 36)"
  | zeroCharacter => "file name contained an unexpected NUL byte"

end PathError

/-- A place is the list of names that leads to it; those above the root are lists of `..`. -/
abbrev Place := List String

structure FileTree where
  files : List (Place × String) := []
  directories : List Place := [[]]
deriving Repr

namespace FileTree

-- What slashes divide; a path from the top starts with a slash of its own.
def pieces (path : String) : List String :=
  let names := (path.toList.splitOn '/').map String.ofList
  if path.startsWith "/" then "/" :: names else names

-- The parts of a path; two slashes are one, and one at the end says nothing.
def parts (path : String) : List String := (pieces path).filter (· ≠ "")

-- A place and those that lead to it.
def upTo (p : Place) : List Place := (List.range (p.length + 1)).map (p.take ·)

/-- A tree of files under their paths, with the directories that they are in. -/
def ofFiles (files : List (String × String)) : FileTree where
  files := files.map fun (path, text) => (parts path, text)
  directories := [] :: files.flatMap fun (path, _) => upTo (parts path).dropLast

variable (t : FileTree)

def isDirectory (p : Place) : Bool := t.directories.contains p || p.all (· == "..")

def has (p : Place) : Bool := t.isDirectory p || (t.files.lookup p).isSome

-- The place that a part leads to from a directory, whether or not something is there.
def child (p : Place) (part : String) : Place :=
  if part = "." ∨ part = "" then p
  else if part = "/" then [".."]
  else if part = ".." then if p.all (· == "..") then p ++ [".."] else p.dropLast
  else p ++ [part]

-- A name has at most 255 bytes.
def checkName (name : String) : Except PathError Unit :=
  if 255 < name.utf8ByteSize then .error .nameTooLong else .ok ()

-- A path has fewer than 4096 bytes, none of them zero.
def checkPath (path : String) : Except PathError Unit :=
  if path.toList.contains (Char.ofNat 0) then .error .zeroCharacter
  else if 4096 ≤ path.utf8ByteSize then .error .nameTooLong
  else .ok ()

/-- Follows parts of a path through what is there. -/
def follow : Place → List String → Except PathError Place
  | p, [] => .ok p
  | p, part :: rest => do
    if !t.isDirectory p then throw .notDirectory
    checkName part
    if !t.has (child p part) then throw .missing
    follow (child p part) rest

/-- What a path leads to. -/
def locate (path : String) : Except PathError Place := do
  checkPath path
  if path = "" then throw .missing
  t.follow [] (pieces path)

def read (path : String) : FileContent :=
  match t.locate path with
  | .error _ => .absent
  | .ok p =>
    match t.files.lookup p with
    | some text => .text text
    | none => .unreadable PathError.isDirectory.message

-- The directory and the last name of parts that lead to something new.
def ending (path : List String) : Except PathError (Place × String) := do
  let p ← t.follow [] path.dropLast
  if !t.isDirectory p then throw .notDirectory
  let name := path.getLastD "."
  if [".", "..", "/"].contains name then throw .taken
  checkName name
  return (p, name)

-- Makes one directory.
def makeDirectory (path : List String) : Except PathError FileTree := do
  let (p, name) ← t.ending path
  if t.has (p ++ [name]) then throw .taken
  return { t with directories := (p ++ [name]) :: t.directories }

-- Makes a directory that may be there already.
def ensureDirectory (path : List String) : Except PathError FileTree :=
  match t.makeDirectory path with
  | .ok t => .ok t
  | .error e =>
    match t.follow [] path with
    | .ok p => if t.isDirectory p then .ok t else .error e
    | .error _ => .error e

-- Makes the first of some directories, each of which is in the next one.
def ensureWithin (t : FileTree) : List (List String) → Except PathError FileTree
  | [] => .ok t
  | path :: outer =>
    match t.ensureDirectory path with
    | .error .missing => do (← t.ensureWithin outer).ensureDirectory path
    | r => r

-- The parts of a path without dots, except one at the start.
def plainParts (path : List String) : List String :=
  path.take 1 ++ (path.drop 1).filter (· ≠ ".")

/-- Makes a directory and those that it is in. -/
def ensure (path : String) : Except PathError FileTree := do
  checkPath path
  match parts path with
  | [] => return t
  | ps => t.ensureWithin (ps :: ((upTo (plainParts ps)).dropLast.reverse.filter (· ≠ [])))

-- Places a text; what was there is gone.
def put (place : Place) (text : String) : FileTree :=
  { t with files := (place, text) :: t.files.filter fun f => f.1 ≠ place }

/-- Writes a file, which may be there already. -/
def write (path text : String) : Except PathError FileTree := do
  checkPath path
  let (p, name) ← t.ending (parts path)
  if t.isDirectory (p ++ [name]) then throw .isDirectory
  return t.put (p ++ [name]) text

/-- The files that are not in another tree. -/
def newFiles (before : FileTree) : List (String × String) :=
  (t.files.filter fun f => (before.files.lookup f.1).isNone && f.1.head? != some "..").map
    fun (p, text) => ("/".intercalate p, text)

end FileTree

end CircuitRouting
