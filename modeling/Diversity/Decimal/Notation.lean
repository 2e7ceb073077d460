import Diversity.Decimal.Binary
import Diversity.Text.Digits
/-! Numbers as they are typed: digits with a point and an exponent, or a word. -/
namespace Diversity.Decimal

/-- The sign in front of a number, and the rest. -/
def sign : List Char → Bool × List Char
  | '-' :: s => (true, s)
  | '+' :: s => (false, s)
  | s => (false, s)

/-- An exponent that fills the rest of the text; an absent one is zero. -/
def exponent? : List Char → Option Int
  | [] => some 0
  | c :: s =>
    if c == 'e' || c == 'E' then
      let (negative, digits) := sign s
      if digits.isEmpty || !digits.all Char.isDigit then none
      else
        let n := Int.ofNat (Text.ofDigits digits)
        some (if negative then -n else n)
    else none

/-- Digits, perhaps with a point among or beside them, and perhaps an exponent. -/
def unsigned? (negative : Bool) (s : List Char) : Option Decimal :=
  let whole := s.takeWhile Char.isDigit
  let (fraction, rest) :=
    match s.dropWhile Char.isDigit with
    | '.' :: rest => (rest.takeWhile Char.isDigit, rest.dropWhile Char.isDigit)
    | rest => ([], rest)
  if whole.isEmpty && fraction.isEmpty then none
  else (exponent? rest).map fun e =>
    ⟨negative, Text.ofDigits (whole ++ fraction), e - Int.ofNat fraction.length⟩

/-- The floating-point number that a text writes. Infinity and NaN are words in any case. -/
def read? (text : String) : Option Float :=
  let (negative, s) := sign text.toList
  let word := (String.ofList s).toLower
  let finish (x : Float) : Float := if negative then -x else x
  if word = "inf" ∨ word = "infinity" then some (finish (Float.ofBits (UInt64.ofNat infinityBits)))
  else if word = "nan" then some (finish (Float.ofBits 0x7FF8000000000000))
  else (unsigned? negative s).map toFloat

end Diversity.Decimal
