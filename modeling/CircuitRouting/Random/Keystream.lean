/-!
# A stream of random words

The stream is that of a block cipher in counter mode: a key, a counter, and twelve rounds of
additions, rotations and exclusive ors on sixteen words. `Keystream.ofSeed` stretches a seed into a
key.
-/

namespace CircuitRouting

/-- Four words side by side. -/
structure Quad where
  w : UInt32
  x : UInt32
  y : UInt32
  z : UInt32
deriving Repr, DecidableEq

namespace Quad

def zipWith (f : UInt32 → UInt32 → UInt32) (a b : Quad) : Quad :=
  ⟨f a.w b.w, f a.x b.x, f a.y b.y, f a.z b.z⟩

def add : Quad → Quad → Quad := zipWith (· + ·)

def rotateWord (n a : UInt32) : UInt32 := (a <<< n) ||| (a >>> (32 - n))

-- The exclusive or of two quads, each word then rotated left by `n` bits.
def mix (n : UInt32) : Quad → Quad → Quad := zipWith fun a b => rotateWord n (a ^^^ b)

/-- The words moved one place to the left, around the end. -/
def turn (a : Quad) : Quad := ⟨a.x, a.y, a.z, a.w⟩

def toList (a : Quad) : List UInt32 := [a.w, a.x, a.y, a.z]

end Quad

/-- The sixteen words that a block is computed from. -/
structure BlockState where
  a : Quad
  b : Quad
  c : Quad
  d : Quad
deriving Repr, DecidableEq

namespace BlockState

-- Mixes the four columns.
def columns (s : BlockState) : BlockState :=
  let a := s.a.add s.b
  let d := s.d.mix 16 a
  let c := s.c.add d
  let b := s.b.mix 12 c
  let a := a.add b
  let d := d.mix 8 a
  let c := c.add d
  let b := b.mix 7 c
  ⟨a, b, c, d⟩

-- Mixes the columns, then the diagonals.
def doubleRound (s : BlockState) : BlockState :=
  let s := s.columns
  let s := columns ⟨s.a, s.b.turn, s.c.turn.turn, s.d.turn.turn.turn⟩
  ⟨s.a, s.b.turn.turn.turn, s.c.turn.turn, s.d.turn⟩

/-- The words of a block: the mixed state added to the state. -/
def words (s : BlockState) : List UInt32 :=
  let t := (List.range 6).foldl (fun t _ => doubleRound t) s
  (s.a.add t.a).toList ++ (s.b.add t.b).toList ++ (s.c.add t.c).toList ++ (s.d.add t.d).toList

end BlockState

/-- A stream of words: the key, the number of the next block, and the words not yet taken. -/
structure Keystream where
  low : Quad
  high : Quad
  counter : UInt64
  buffer : List UInt32
deriving Repr, DecidableEq

namespace Keystream

-- The words that open every block state.
def constants : Quad := ⟨0x61707865, 0x3320646e, 0x79622d32, 0x6b206574⟩

/-- The words of the next block. -/
def block (k : Keystream) : List UInt32 :=
  BlockState.words
    ⟨constants, k.low, k.high, ⟨k.counter.toUInt32, (k.counter >>> 32).toUInt32, 0, 0⟩⟩

def nextWord (k : Keystream) : UInt32 × Keystream :=
  match k.buffer with
  | x :: rest => (x, { k with buffer := rest })
  | [] =>
    match k.block with
    | x :: rest => (x, { k with counter := k.counter + 1, buffer := rest })
    | [] => (0, k)

/-- Two words, the low one first. -/
def next (k : Keystream) : UInt64 × Keystream :=
  let (low, k) := k.nextWord
  let (high, k) := k.nextWord
  (low.toUInt64 ||| (high.toUInt64 <<< 32), k)

-- The state after one step of the generator that stretches seeds.
def stretch (s : UInt64) : UInt64 := s * 6364136223846793005 + 11634580027462260723

-- The word that a state of that generator stands for.
def stretched (s : UInt64) : UInt32 :=
  let x := (((s >>> 18) ^^^ s) >>> 27).toUInt32
  let n := (s >>> 59).toUInt32
  (x >>> n) ||| (x <<< ((32 - n) % 32))

-- Four words of key and the state after them.
def keyWords (s : UInt64) : Quad × UInt64 :=
  let s₁ := stretch s
  let s₂ := stretch s₁
  let s₃ := stretch s₂
  let s₄ := stretch s₃
  (⟨stretched s₁, stretched s₂, stretched s₃, stretched s₄⟩, s₄)

def ofSeed (seed : UInt64) : Keystream :=
  let (low, s) := keyWords seed
  let (high, _) := keyWords s
  ⟨low, high, 0, []⟩

end Keystream

end CircuitRouting
