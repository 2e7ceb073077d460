import Diversity.Random.Source
/-! The keystream of the ChaCha cipher with twelve rounds, as a source of random words. -/
namespace Diversity

/-- Four words that are worked on at once. -/
structure Row where
  w0 : UInt32
  w1 : UInt32
  w2 : UInt32
  w3 : UInt32
  deriving DecidableEq, Inhabited

def rotateLeft (x n : UInt32) : UInt32 := (x <<< n) ||| (x >>> (32 - n))

namespace Row

def add (a b : Row) : Row := ⟨a.w0 + b.w0, a.w1 + b.w1, a.w2 + b.w2, a.w3 + b.w3⟩

/-- `a xor b`, each word rotated left. -/
def mix (n : UInt32) (a b : Row) : Row :=
  ⟨rotateLeft (a.w0 ^^^ b.w0) n, rotateLeft (a.w1 ^^^ b.w1) n, rotateLeft (a.w2 ^^^ b.w2) n,
    rotateLeft (a.w3 ^^^ b.w3) n⟩

/-- The words one place further to the front. -/
def turn (a : Row) : Row := ⟨a.w1, a.w2, a.w3, a.w0⟩

def toList (a : Row) : List UInt32 := [a.w0, a.w1, a.w2, a.w3]

end Row

namespace ChaCha

/-- The state of the cipher; its columns are worked on in parallel. -/
structure Matrix where
  a : Row
  b : Row
  c : Row
  d : Row
  deriving DecidableEq, Inhabited

namespace Matrix

/-- The quarter round on every column. -/
def columnRound (m : Matrix) : Matrix :=
  let a := m.a.add m.b
  let d := Row.mix 16 m.d a
  let c := m.c.add d
  let b := Row.mix 12 m.b c
  let a := a.add b
  let d := Row.mix 8 d a
  let c := c.add d
  let b := Row.mix 7 b c
  ⟨a, b, c, d⟩

/-- Moves the diagonals into the columns. -/
def slant (m : Matrix) : Matrix := ⟨m.a, m.b.turn, m.c.turn.turn, m.d.turn.turn.turn⟩

/-- Moves the columns back into the diagonals. -/
def unslant (m : Matrix) : Matrix := ⟨m.a, m.b.turn.turn.turn, m.c.turn.turn, m.d.turn⟩

def doubleRound (m : Matrix) : Matrix := m.columnRound.slant.columnRound.unslant

def rounds : Nat → Matrix → Matrix
  | 0, m => m
  | n + 1, m => rounds n m.doubleRound

def add (m n : Matrix) : Matrix := ⟨m.a.add n.a, m.b.add n.b, m.c.add n.c, m.d.add n.d⟩

def toList (m : Matrix) : List UInt32 := m.a.toList ++ m.b.toList ++ m.c.toList ++ m.d.toList

end Matrix

structure Key where
  front : Row
  back : Row
  deriving DecidableEq, Inhabited

def constants : Row := ⟨0x61707865, 0x3320646e, 0x79622d32, 0x6b206574⟩

/-- The state before the rounds. -/
def initial (key : Key) (counter : UInt64) : Matrix :=
  ⟨constants, key.front, key.back, ⟨counter.toUInt32, (counter >>> 32).toUInt32, 0, 0⟩⟩

/-- The sixteen words of a block. -/
def block (key : Key) (counter : UInt64) : List UInt32 :=
  let m := initial key counter
  ((m.rounds 6).add m).toList

/-- The word of the keystream at a position. -/
def word (key : Key) (position : Nat) : UInt32 :=
  (block key (UInt64.ofNat (position / 16))).getD (position % 16) 0

/-- One step of the generator that turns a seed into a key. -/
def seedWord : StateM UInt64 UInt32 := fun s =>
  let s := s * 6364136223846793005 + 11634580027462260723
  let x := (((s >>> 18) ^^^ s) >>> 27).toUInt32
  let back : UInt32 := (s >>> 59).toUInt32
  (rotateLeft x (32 - back), s)

def seedRow : StateM UInt64 Row := do
  return ⟨← seedWord, ← seedWord, ← seedWord, ← seedWord⟩

def Key.ofSeed (seed : UInt64) : Key :=
  let (front, s) := seedRow seed
  ⟨front, (seedRow s).1⟩

end ChaCha

/-- A place in a keystream. -/
structure ChaCha where
  key : ChaCha.Key
  position : Nat
  deriving DecidableEq, Inhabited

namespace ChaCha

def ofSeed (seed : UInt64) : ChaCha := ⟨.ofSeed seed, 0⟩

def next : StateM ChaCha UInt32 := fun s => (word s.key s.position, { s with position := s.position + 1 })

/-- A long word is two short ones, the low half first. -/
instance : RandomSource ChaCha where
  next32 := next
  next64 := do
    let low ← next
    let high ← next
    return (high.toUInt64 <<< 32) ||| low.toUInt64

end ChaCha

end Diversity
