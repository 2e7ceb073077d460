import Diversity.Decimal.Shortest
/-! Floating-point numbers as text. -/
namespace Diversity.Decimal

/-- How a floating-point number is written. -/
structure Style where
  /-- Positions of the point, counted from the first digit, that are written without an exponent. -/
  isPositional : Int → Bool
  /-- What follows a number without a fraction. -/
  wholeSuffix : String
  /-- What stands before the digits of an exponent that is not negative. -/
  exponentSign : String

/-- Every number is written out, and a whole number has no point. -/
def Style.plain : Style := ⟨fun _ => true, "", ""⟩

/-- Sixteen places before the point and four zeros after it are written out, a whole number keeps its
point, and every exponent has a sign. -/
def Style.compact : Style := ⟨fun p => -5 < p && p ≤ 16, ".0", "+"⟩

/-- The digits of a positive number with the point after `places` of them. -/
def positional (style : Style) (digits : String) (places : Int) : String :=
  let n := Int.ofNat digits.length
  if places ≤ 0 then "0." ++ "".pushn '0' (-places).toNat ++ digits
  else if n ≤ places then digits ++ "".pushn '0' (places - n).toNat ++ style.wholeSuffix
  else String.ofList (digits.toList.take places.toNat) ++ "." ++
    String.ofList (digits.toList.drop places.toNat)

/-- The digits of a positive number with an exponent. -/
def scientific (style : Style) (digits : String) (places : Int) : String :=
  let mantissa := match digits.toList with
    | [] => ""
    | [c] => String.ofList [c]
    | c :: cs => String.ofList (c :: '.' :: cs)
  let exponent := places - 1
  mantissa ++ "e" ++ (if exponent < 0 then "-" else style.exponentSign) ++ toString exponent.natAbs

def render (style : Style) (x : Float) : String :=
  if x.isNaN then "NaN"
  else
    let bits := x.toBits.toNat
    let sign := if pow2 63 ≤ bits then "-" else ""
    if x.isInf then sign ++ "inf"
    else
      let d := shortest bits
      if d.digits = 0 then sign ++ "0" ++ style.wholeSuffix
      else
        let digits := toString d.digits
        let places := d.exponent + Int.ofNat digits.length
        sign ++ if style.isPositional places then positional style digits places
          else scientific style digits places

end Diversity.Decimal
