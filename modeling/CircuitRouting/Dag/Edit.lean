import CircuitRouting.Dag.Basic

/-!
# Editing a circuit graph

Operations are appended at the end of their wires, removed, or replaced in place by others on the
same wires. A removal or replacement that fails changes nothing. An append that meets a wire without
an edge into its output leaves the new node on the wires before that one; `append` shows this graph.
-/

namespace CircuitRouting

namespace Dag

variable (d : Dag)

-- The first member of a list that occurs in it before.
def firstRepeated? : (seen : List Nat) → List Nat → Option Nat
  | _, [] => none
  | seen, x :: xs => if seen.contains x then some x else firstRepeated? (x :: seen) xs

/-- Checks the operands of an instruction: how many, that they exist, and that no qubit repeats. -/
def validate (i : Instruction) : Except CircuitError Unit := do
  match i.action.arity? with
  | some n =>
    if i.qubits.length ≠ n then throw (.qubitCount i.name n i.qubits.length)
  | none => pure ()
  if i.isMeasure ∧ i.clbits.length ≠ 1 then
    throw (.invalidGraph (.measureOperands i.clbits.length))
  match i.qubits.find? fun q => !d.hasWire (.qubit q) with
  | some q => throw (.qubitNotFound q i.gateName?)
  | none => pure ()
  match i.clbits.find? fun c => !d.hasWire (.clbit c) with
  | some c => throw (.clbitNotFound c i.gateName?)
  | none => pure ()
  match firstRepeated? [] i.qubits with
  | some q => throw (.duplicateQubit q i.gateName?)
  | none => pure ()

-- Records the node just before the output of a wire.
def setFront (w : Wire) (n : Nat) : Dag :=
  { d with wires := d.wires.map fun e => if e.wire = w then { e with front := n } else e }

-- Puts a node at the end of a wire.
def extend (w : Wire) (n : Nat) : Except CircuitError Dag :=
  match d.ends? w with
  | none => .error (.invalidGraph (.missingOutputEdge w))
  | some e =>
    if d.successor? e.front w = some e.output then
      let g := ((d.graph.unlink e.front e.output w).link e.front n w).link n e.output w
      .ok ({ d with graph := g }.setFront w n)
    else .error (.invalidGraph (.missingOutputEdge w))

-- Puts a node at the end of each wire in turn, up to the first that cannot be extended.
def extendAll (n : Nat) : List Wire → Dag → Except CircuitError Unit × Dag
  | [], d => (.ok (), d)
  | w :: ws, d =>
    match d.extend w n with
    | .ok d => extendAll n ws d
    | .error e => (.error e, d)

/-- Appends an instruction at the end of its wires; its node, and the graph also after a failure. -/
def append (i : Instruction) : Except CircuitError Nat × Dag :=
  match d.validate i with
  | .error e => (.error e, d)
  | .ok () =>
    let n := d.graph.nextNumber
    let (r, d) := extendAll n i.wires { d with graph := d.graph.add (.op i) }
    (r.map fun _ => n, d)

/-- Appends an instruction at the end of its wires; returns its node. -/
def apply (i : Instruction) : Except CircuitError (Nat × Dag) :=
  match d.append i with
  | (.ok n, d) => .ok (n, d)
  | (.error e, _) => .error e

/-- Appends instructions one after the other. -/
def applyAll (is : List Instruction) : Except CircuitError Dag :=
  is.foldlM (fun (d : Dag) i => (d.apply i).map Prod.snd) d

/-- A wire through a node with the nodes before and after it. -/
structure Link where
  wire : Wire
  pred : Nat
  succ : Nat

-- The neighbours of an operation on each of its wires.
def links (n : Nat) (i : Instruction) : Except CircuitError (List Link) :=
  i.wires.mapM fun w =>
    match d.predecessor? n w, d.successor? n w with
    | some p, some s => .ok ⟨w, p, s⟩
    | _, _ => .error (.invalidGraph (.brokenAround w n))

-- Joins the two neighbours of a node that was removed.
def rejoin (n : Nat) (d : Dag) (l : Link) : Dag :=
  let d' : Dag := { d with graph := d.graph.link l.pred l.succ l.wire }
  match d.ends? l.wire with
  | some e => if e.front = n then d'.setFront l.wire l.pred else d'
  | none => d'

/-- Removes an operation and joins its neighbours on each wire; returns its instruction. -/
def removeOp (n : Nat) : Except CircuitError (Instruction × Dag) :=
  match d.node? n with
  | none => .error .invalidNode
  | some (.op i) => do
    let ls ← d.links n i
    return (i, ls.foldl (rejoin n) { d with graph := d.graph.remove n })
  | some _ => .error (.invalidGraph .notAnOperation)

-- Checks that each replacement is valid and touches allowed wires only.
def checkReplacement (allowed : List Wire) (i : Instruction) : Except CircuitError Unit := do
  d.validate i
  match i.wires.find? fun w => !allowed.contains w with
  | some w => throw (.invalidGraph (.foreignWire i.name w))
  | none => pure ()

/-- A replacement under way: the graph, the last node on each wire, and the new nodes. -/
structure Splice where
  graph : Graph
  last : List (Wire × Nat)
  added : List Nat

namespace Splice

-- Leads a wire from its last node to node `n`.
def thread (n : Nat) (s : Splice) (w : Wire) : Splice :=
  match s.last.lookup w with
  | some p => { s with graph := s.graph.link p n w, last := (w, n) :: s.last }
  | none => { s with last := (w, n) :: s.last }

/-- Adds the next instruction of the replacement. -/
def push (s : Splice) (i : Instruction) : Splice :=
  let n := s.graph.nextNumber
  i.wires.foldl (thread n) { s with graph := s.graph.add (.op i), added := s.added ++ [n] }

-- Leads a wire from its last node to the node after the replacement.
def close (s : Splice) (l : Link) : Splice :=
  match s.last.lookup l.wire with
  | some p => { s with graph := s.graph.link p l.succ l.wire }
  | none => s

end Splice

-- The front of a wire moves to the last new node on it if it was the replaced node.
def advanceFront (n : Nat) (s : Splice) (wires : List WireEnds) (l : Link) : List WireEnds :=
  wires.map fun e =>
    if e.wire = l.wire ∧ e.front = n then
      { e with front := (s.last.lookup l.wire).getD n }
    else e

-- The replacement of a node, whose links are given, by checked instructions.
def splice (n : Nat) (ls : List Link) (is : List Instruction) : List Nat × Dag :=
  let start : Splice := ⟨d.graph.remove n, ls.map fun l => (l.wire, l.pred), []⟩
  let s := ls.foldl Splice.close (is.foldl Splice.push start)
  (s.added, { d with graph := s.graph, wires := ls.foldl (advanceFront n s) d.wires })

/--
Replaces an operation in place by instructions on its wires; returns their nodes. The number of the
replaced node is free for the first of them.
-/
def substitute (n : Nat) (is : List Instruction) : Except CircuitError (List Nat × Dag) :=
  match d.instruction? n with
  | none => .error .invalidNode
  | some i => do
    is.forM (d.checkReplacement i.wires)
    let ls ← d.links n i
    return d.splice n ls is

/-- A change of one operation of a graph. -/
inductive Revision where
  | replace (n : Nat) (is : List Instruction)
  | remove (n : Nat)
deriving Repr

def revise : Revision → Except CircuitError Dag
  | .replace n is => (d.substitute n is).map Prod.snd
  | .remove n => (d.removeOp n).map Prod.snd

/-- Makes changes one after the other, up to the first that fails; the graph holds those before it. -/
def reviseAll : List Revision → Dag → Except CircuitError Unit × Dag
  | [], d => (.ok (), d)
  | r :: rs, d =>
    match d.revise r with
    | .ok d => reviseAll rs d
    | .error e => (.error e, d)

end Dag

end CircuitRouting
