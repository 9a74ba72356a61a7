import CircuitRouting.Numeric.Hypotenuse

/-!
# Complex numbers in doubles
-/

namespace CircuitRouting

structure Amplitude where
  re : Float
  im : Float
deriving Repr, Inhabited

namespace Amplitude

def zero : Amplitude := ⟨0, 0⟩

def one : Amplitude := ⟨1, 0⟩

def i : Amplitude := ⟨0, 1⟩

def real (x : Float) : Amplitude := ⟨x, 0⟩

/-- The number of modulus `r` and argument `t`. -/
def polar (r t : Float) : Amplitude := ⟨r * t.cos, r * t.sin⟩

def add (z w : Amplitude) : Amplitude := ⟨z.re + w.re, z.im + w.im⟩

def sub (z w : Amplitude) : Amplitude := ⟨z.re - w.re, z.im - w.im⟩

def neg (z : Amplitude) : Amplitude := ⟨-z.re, -z.im⟩

def mul (z w : Amplitude) : Amplitude := ⟨z.re * w.re - z.im * w.im, z.re * w.im + z.im * w.re⟩

def scale (z : Amplitude) (x : Float) : Amplitude := ⟨z.re * x, z.im * x⟩

def conj (z : Amplitude) : Amplitude := ⟨z.re, -z.im⟩

-- The square of the modulus.
def normSq (z : Amplitude) : Float := z.re * z.re + z.im * z.im

/-- The modulus. -/
def norm (z : Amplitude) : Float := hypotenuse z.re z.im

def arg (z : Amplitude) : Float := Float.atan2 z.im z.re

def div (z w : Amplitude) : Amplitude :=
  let n := w.normSq
  ⟨(z.re * w.re + z.im * w.im) / n, (z.im * w.re - z.re * w.im) / n⟩

def unscale (z : Amplitude) (x : Float) : Amplitude := ⟨z.re / x, z.im / x⟩

instance : Add Amplitude := ⟨add⟩
instance : Sub Amplitude := ⟨sub⟩
instance : Neg Amplitude := ⟨neg⟩
instance : Mul Amplitude := ⟨mul⟩
instance : Div Amplitude := ⟨div⟩

end Amplitude

end CircuitRouting
