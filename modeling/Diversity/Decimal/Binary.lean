import Diversity.Power
/-! Decimal numbers, and the binary floating-point number nearest to a fraction. -/
namespace Diversity

/-- The number `digits * 10 ^ exponent`, negated if `negative`. -/
structure Decimal where
  negative : Bool
  digits : Nat
  exponent : Int
  deriving DecidableEq, Inhabited

namespace Decimal

/-- `num / den` to the nearest natural number; a half goes to the even neighbour. -/
def roundDiv (num den : Nat) : Nat :=
  let q := num / den
  let r := num % den
  if 2 * r > den || (2 * r == den && q % 2 == 1) then q + 1 else q

/-- `num / den / 2 ^ k` to the nearest natural number. -/
def roundScaled (num den : Nat) (k : Int) : Nat :=
  if k < 0 then roundDiv (num * pow2 k.natAbs) den else roundDiv num (den * pow2 k.natAbs)

/-- The scale at which a positive fraction has 53 binary digits before the point, and not below the
least that a 64-bit number has. -/
def binaryScale (num den : Nat) : Int :=
  let k : Int := Int.ofNat num.log2 - Int.ofNat den.log2 - 53
  let floor := if k < 0 then num * pow2 k.natAbs / den else num / (den * pow2 k.natAbs)
  max (if floor < pow2 53 then k else k + 1) (-1074)

/-- The bits of infinity. -/
def infinityBits : Nat := 0x7FF * pow2 52

/-- The bits of the floating-point number nearest to a fraction; too large a fraction gives infinity. -/
def nearestBits (num den : Nat) : Nat :=
  if num = 0 then 0
  else
    let k := binaryScale num den
    let m := roundScaled num den k
    let bits := if m < pow2 52 then m else (m - pow2 52) + (k + 1075).toNat * pow2 52
    min bits infinityBits

/-- The bits of the floating-point number nearest to a decimal. Beyond 400 places before or after the
point the digits no longer matter. -/
def toBits (d : Decimal) : Nat :=
  let places : Int := d.exponent + Int.ofNat (toString d.digits).length
  let magnitude :=
    if d.digits = 0 || places < -400 then 0
    else if places > 400 then infinityBits
    else if d.exponent < 0 then nearestBits d.digits (pow10 d.exponent.natAbs)
    else nearestBits (d.digits * pow10 d.exponent.natAbs) 1
  if d.negative then magnitude + pow2 63 else magnitude

def toFloat (d : Decimal) : Float := Float.ofBits (UInt64.ofNat d.toBits)

end Decimal

end Diversity
