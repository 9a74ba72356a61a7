import CircuitRouting.Amplitude
import CircuitRouting.Angle
import CircuitRouting.Gate

/-!
# Matrices of one-qubit gates

A run of one-qubit gates is multiplied out as a matrix and read back as the angles of one gate, up
to a global phase.
-/

namespace CircuitRouting

/-- A two by two matrix, row by row. -/
structure Unitary where
  a : Amplitude
  b : Amplitude
  c : Amplitude
  d : Amplitude
deriving Repr, Inhabited

namespace Unitary

/-- How near to zero counts as zero. -/
def epsilon : Float := 1e-9

def diagonal (a d : Amplitude) : Unitary := ⟨a, .zero, .zero, d⟩

def identity : Unitary := diagonal .one .one

def u1 (lambda : Float) : Unitary := diagonal .one (.polar 1 lambda)

def u3 (theta phi lambda : Float) : Unitary :=
  let s := (theta / 2).sin
  let c := (theta / 2).cos
  ⟨.real c, -Amplitude.polar s lambda, .polar s phi, .polar c (phi + lambda)⟩

def u2 (phi lambda : Float) : Unitary := u3 (Angle.pi / 2) phi lambda

def rx (theta : Float) : Unitary :=
  let s := (-Amplitude.i).scale (theta / 2).sin
  let c := Amplitude.real (theta / 2).cos
  ⟨c, s, s, c⟩

def ry (theta : Float) : Unitary :=
  let s := (theta / 2).sin
  let c := Amplitude.real (theta / 2).cos
  ⟨c, .real (-s), .real s, c⟩

def rz (theta : Float) : Unitary := diagonal (.polar 1 (-theta / 2)) (.polar 1 (theta / 2))

/-- The matrix of a one-qubit gate. -/
def ofGate? : Gate → Option Unitary
  | .id => some identity
  | .x => some ⟨.zero, .one, .one, .zero⟩
  | .y => some ⟨.zero, -Amplitude.i, .i, .zero⟩
  | .z => some (diagonal .one (-Amplitude.one))
  | .h => some (u2 0 Angle.pi)
  | .s => some (u1 (Angle.pi / 2))
  | .sdg => some (u1 (-(Angle.pi / 2)))
  | .t => some (u1 (Angle.pi / 4))
  | .tdg => some (u1 (-(Angle.pi / 4)))
  | .rx theta => some (rx theta)
  | .ry theta => some (ry theta)
  | .rz theta => some (rz theta)
  | .u1 lambda => some (u1 lambda)
  | .u2 phi lambda => some (u2 phi lambda)
  | .u3 theta phi lambda => some (u3 theta phi lambda)
  | .cx | .cz | .swap => none

/-- The matrix of `v` followed by `u`. -/
def mul (u v : Unitary) : Unitary :=
  ⟨u.a * v.a + u.b * v.c, u.a * v.b + u.b * v.d, u.c * v.a + u.d * v.c, u.c * v.b + u.d * v.d⟩

instance : Mul Unitary := ⟨mul⟩

/-- The conjugate transpose. -/
def dagger (u : Unitary) : Unitary := ⟨u.a.conj, u.c.conj, u.b.conj, u.d.conj⟩

/-- The identity up to a global phase. -/
def isIdentity (u : Unitary) : Bool :=
  u.b.norm < epsilon && u.c.norm < epsilon && (u.a - u.d).norm < epsilon

def entries (u : Unitary) : List Amplitude := [u.a, u.b, u.c, u.d]

-- The entries of two matrices at the last place where the first is largest.
def pivot (u v : Unitary) : Amplitude × Amplitude :=
  ((u.entries.zip v.entries).drop 1).foldl
    (fun best x => if best.1.norm <= x.1.norm then x else best) (u.a, v.a)

/-- Two matrices agree up to a global phase. -/
def agrees (u v : Unitary) (tolerance : Float) : Bool :=
  let (x, y) := pivot u v
  if x.norm < tolerance || y.norm < tolerance then false
  else
    let phase := y / x
    let phase := phase.unscale phase.norm
    (u.entries.zip v.entries).all fun (p, q) => (p * phase - q).norm < tolerance

-- A number brought into an interval.
def clamp (low high x : Float) : Float := if x < low then low else if x > high then high else x

/--
The angles of the gate `u3` that the matrix is up to a global phase. The first is between 0 and π;
if it is one of the ends the second angle is zero.
-/
def toU3 (u : Unitary) : Float × Float × Float :=
  let theta := 2 * Float.atan2 u.c.norm u.a.norm
  let phase := if u.a.norm > epsilon then u.a.arg else u.c.arg
  let turn := Amplitude.polar 1 (-phase)
  let b := u.b * turn
  let c := u.c * turn
  let d := u.d * turn
  let (phi, lambda) :=
    if u.a.norm <= epsilon then (0, (-b).arg)
    else if c.norm <= epsilon then (0, d.arg)
    else (c.arg, (-b).arg)
  (clamp 0 Angle.pi theta, Angle.normalize phi, Angle.normalize lambda)

/-- The product of matrices in the order in which they act. -/
def product (us : List Unitary) : Unitary := us.foldl (fun acc u => u * acc) identity

end Unitary

end CircuitRouting
