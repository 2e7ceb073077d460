import Diversity.Decimal.Shortest
import Diversity.Random.Source
/-! Coins, chances and indices from random words. -/
namespace Diversity

/-- A fair coin. -/
def coin {σ : Type} [RandomSource σ] : StateM σ Bool := do
  return (← RandomSource.next64) < 0x8000000000000000

/-- How likely something is. -/
inductive Chance where
  | never
  /-- A random word is below the limit. -/
  | below (limit : UInt64)
  | always
  deriving DecidableEq, Inhabited

namespace Chance

/-- The largest whole number that is not above `m * 2 ^ e`. -/
def floorScaled (m : Nat) (e : Int) : Nat := if e < 0 then m / pow2 e.natAbs else m * pow2 e.natAbs

/-- The bits of the number one. -/
def oneBits : Nat := 0x3FF * pow2 52

/-- The chance of a probability given by the bits of a floating-point number. What is not a number has
no chance; numbers outside the unit interval count as its nearest end. Bits of positive numbers are in
the order of the numbers. -/
def ofBits (bits : Nat) : Chance :=
  if bits = 0 ∨ Decimal.infinityBits < bits then .never
  else if oneBits ≤ bits then .always
  else
    let (m, e) := Decimal.magnitude bits
    .below (UInt64.ofNat (floorScaled m (e + 64)))

def ofFloat (p : Float) : Chance := ofBits p.toBits.toNat

/-- Certainty needs no random word. -/
def draw {σ : Type} [RandomSource σ] : Chance → StateM σ Bool
  | .never => return false
  | .below limit => do return (← RandomSource.next64) < limit
  | .always => return true

end Chance

/-- The first accepted result of at most `attempts` draws. -/
def firstAccepted {σ α : Type} (draw : StateM σ α) (accept : α → Bool) : Nat → StateM σ (Option α)
  | 0 => return none
  | attempts + 1 => do
    let a ← draw
    if accept a then return some a else firstAccepted draw accept attempts

/-- How often a draw is repeated before it is given up. -/
def maxAttempts : Nat := pow2 32

namespace Index

/-- Low halves of `v * n` up to this bound make every high half equally likely. -/
def zone (width n : Nat) : Nat := n * pow2 (width - 1 - n.log2) - 1

/-- The word `v` may be used for an index below `n`. -/
def accepts (width n v : Nat) : Bool := v * n % pow2 width ≤ zone width n

/-- An index below `n` from words of the given width. -/
def draw {σ : Type} (width n : Nat) (word : StateM σ Nat) : StateM σ Nat := do
  match ← firstAccepted word (accepts width n) maxAttempts with
  | some v => return v * n / pow2 width
  | none => return 0

/-- An index below `n` from long words. -/
def draw64 {σ : Type} [RandomSource σ] (n : Nat) : StateM σ Nat :=
  draw 64 n do return (← RandomSource.next64).toNat

/-- An index below `n` from short words. -/
def draw32 {σ : Type} [RandomSource σ] (n : Nat) : StateM σ Nat :=
  draw 32 n do return (← RandomSource.next32).toNat

end Index

end Diversity
