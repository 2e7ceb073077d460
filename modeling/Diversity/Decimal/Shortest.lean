import Diversity.Decimal.Binary
/-! The fewest decimal digits that read back as a given floating-point number. -/
namespace Diversity.Decimal

/-- The finite magnitude `mantissa * 2 ^ exponent` of a floating-point number's bits. -/
def magnitude (bits : Nat) : Nat × Int :=
  let fraction := bits % pow2 52
  let biased := bits / pow2 52 % pow2 11
  if biased = 0 then (fraction, -1074) else (fraction + pow2 52, Int.ofNat biased - 1075)

/-- All that lies between two fractions over one denominator, with the ends or without them. -/
structure Interval where
  lower : Nat
  upper : Nat
  den : Nat
  closed : Bool

/-- The fractions that round to `m * 2 ^ e`, and that number over the same denominator. Below a power
of two the neighbours are twice as near. -/
def roundingInterval (m : Nat) (e : Int) : Interval × Nat :=
  let scale := pow2 e.natAbs
  let (unit, den) := if e < 0 then (1, 4 * scale) else (scale, 4)
  let below := if m = pow2 52 ∧ -1074 < e then 1 else 2
  (⟨(4 * m - below) * unit, (4 * m + 2) * unit, den, m % 2 == 0⟩, 4 * m * unit)

/-- The fraction `n * 10 ^ k` lies in the interval. -/
def Interval.contains (i : Interval) (n : Nat) (k : Int) : Bool :=
  let (a, den) := if k < 0 then (n, pow10 k.natAbs) else (n * pow10 k.natAbs, 1)
  if i.closed then decide (i.lower * den ≤ a * i.den) && decide (a * i.den ≤ i.upper * den)
  else decide (i.lower * den < a * i.den) && decide (a * i.den < i.upper * den)

/-- The neighbours of `num / den` on the grid of multiples of `10 ^ k`, the nearer first. -/
def neighbours (num den : Nat) (k : Int) : List Nat :=
  let (n, d) := if k < 0 then (num * pow10 k.natAbs, den) else (num, den * pow10 k.natAbs)
  let q := n / d
  let near := roundDiv n d
  if near = q then [q, q + 1] else [q + 1, q]

/-- The least `p ≥ start` with `num / den < 10 ^ p`, among the next `steps`. -/
def decimalPlaces (num den : Nat) : Nat → Int → Int
  | 0, p => p
  | steps + 1, p =>
    let below := if p < 0 then decide (num * pow10 p.natAbs < den) else decide (num < den * pow10 p.natAbs)
    if below then p else decimalPlaces num den steps (p + 1)

/-- The first grid, from coarse to fine, with a point that rounds to the number. -/
def firstHit (i : Interval) (num : Nat) : Nat → Int → Nat × Int
  | 0, k => (roundDiv num i.den, k)
  | grids + 1, k =>
    match (neighbours num i.den k).find? (fun n => n ≠ 0 && i.contains n k) with
    | some n => (n, k)
    | none => firstHit i num grids (k - 1)

/-- Digits without trailing zeros. -/
def stripZeros : Nat → Nat → Int → Nat × Int
  | 0, n, k => (n, k)
  | steps + 1, n, k => if n ≠ 0 && n % 10 == 0 then stripZeros steps (n / 10) (k + 1) else (n, k)

/-- The shortest decimal that reads back as the number with these bits; of several the nearest. -/
def shortest (bits : Nat) : Decimal :=
  let negative := decide (pow2 63 ≤ bits)
  let (m, e) := magnitude bits
  if m = 0 then ⟨negative, 0, 0⟩
  else
    let (interval, num) := roundingInterval m e
    let places := decimalPlaces num interval.den 700 (-330)
    let (n, k) := firstHit interval num 18 (places - 1)
    let (n, k) := stripZeros 20 n k
    ⟨negative, n, k⟩

end Diversity.Decimal
