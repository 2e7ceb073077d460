import Diversity.Decimal.Notation
import Diversity.Toml.Basic
/-! Numbers, dates and words of TOML, each as a whole. -/
namespace Diversity.Toml

/-- Digits with single underscores between them, without the underscores. -/
def digits? (isDigit : Char → Bool) : List Char → Option (List Char)
  | [] => none
  | [c] => if isDigit c then some [c] else none
  | c :: '_' :: s => if isDigit c then (digits? isDigit s).map (c :: ·) else none
  | c :: s => if isDigit c then (digits? isDigit s).map (c :: ·) else none

/-- The decimal digits of a whole number, which has no zeros in front. -/
def whole? (s : List Char) : Option (List Char) :=
  match s with
  | ['0'] => some ['0']
  | '0' :: _ => none
  | _ => digits? Char.isDigit s

def digitValue (c : Char) : Nat :=
  if c.isDigit then c.toNat - '0'.toNat
  else if c.isLower then c.toNat - 'a'.toNat + 10
  else c.toNat - 'A'.toNat + 10

/-- The number that digits write in a base. -/
def inBase (base : Nat) (digits : List Char) : Int :=
  Int.ofNat (digits.foldl (fun n c => base * n + digitValue c) 0)

def isHexDigit (c : Char) : Bool := c.isDigit || ('a' ≤ c && c ≤ 'f') || ('A' ≤ c && c ≤ 'F')

/-- Whole numbers have 64 bits, one of them for the sign. -/
def inRange (n : Int) : Option Int :=
  if -Int.ofNat (pow2 63) ≤ n ∧ n < Int.ofNat (pow2 63) then some n else none

def integer? : List Char → Option Int
  | '0' :: 'x' :: s => do inRange (inBase 16 (← digits? isHexDigit s))
  | '0' :: 'o' :: s => do inRange (inBase 8 (← digits? (fun c => '0' ≤ c && c ≤ '7') s))
  | '0' :: 'b' :: s => do inRange (inBase 2 (← digits? (fun c => c == '0' || c == '1') s))
  | '-' :: s => do inRange (-inBase 10 (← whole? s))
  | '+' :: s => do inRange (inBase 10 (← whole? s))
  | s => do inRange (inBase 10 (← whole? s))

/-- The exponent after its letter. -/
def exponent? (s : List Char) : Option Int := do
  let (negative, s) := Decimal.sign s
  let n := inBase 10 (← digits? Char.isDigit s)
  return if negative then -n else n

/-- A decimal without its sign: a fraction, an exponent, or both. -/
def decimal? (negative : Bool) (s : List Char) : Option Decimal := do
  let isMark (c : Char) : Bool := c == 'e' || c == 'E'
  let (mantissa, rest) := s.span (!isMark ·)
  let exponent ← match rest with
    | [] => some none
    | _ :: s => (exponent? s).map some
  match mantissa.span (· != '.') with
  | (whole, []) =>
    let e ← exponent
    return ⟨negative, Text.ofDigits (← whole? whole), e⟩
  | (whole, _ :: fraction) =>
    let whole ← whole? whole
    let fraction ← digits? Char.isDigit fraction
    return ⟨negative, Text.ofDigits (whole ++ fraction), exponent.getD 0 - Int.ofNat fraction.length⟩

/-- A floating-point number. One that is too large is refused; its negative is not. -/
def float? (s : List Char) : Option Float :=
  let (negative, rest) := Decimal.sign s
  let signed (x : Float) : Float := if negative then -x else x
  if rest = ['i', 'n', 'f'] then some (signed (Float.ofBits (UInt64.ofNat Decimal.infinityBits)))
  else if rest = ['n', 'a', 'n'] then some (signed (Float.ofBits 0x7FF8000000000000))
  else do
    let d ← decimal? negative rest
    if d.toBits = Decimal.infinityBits then none else some d.toFloat

/-- A number with exactly as many digits as there are characters. -/
def fixed? (s : List Char) : Option Nat := if s.all Char.isDigit then some (Text.ofDigits s) else none

def isLeapYear (year : Nat) : Bool := (year % 4 == 0 && year % 100 != 0) || year % 400 == 0

def daysIn (year month : Nat) : Nat :=
  if month = 2 then if isLeapYear year then 29 else 28
  else if month = 4 ∨ month = 6 ∨ month = 9 ∨ month = 11 then 30
  else 31

def isDate (s : List Char) : Bool :=
  match s with
  | [a, b, c, d, '-', e, f, '-', g, h] =>
    match fixed? [a, b, c, d], fixed? [e, f], fixed? [g, h] with
    | some year, some month, some day =>
      1 ≤ month && month ≤ 12 && 1 ≤ day && day ≤ daysIn year month
    | _, _, _ => false
  | _ => false

/-- Hours and minutes. -/
def isClock (a b c d : Char) : Bool :=
  match fixed? [a, b], fixed? [c, d] with
  | some hour, some minute => hour ≤ 23 && minute ≤ 59
  | _, _ => false

/-- The distance from universal time. -/
def isZone : List Char → Bool
  | ['Z'] | ['z'] => true
  | [s, a, b, ':', c, d] => (s == '+' || s == '-') && isClock a b c d
  | _ => false

/-- A time, and what follows it. -/
def afterTime? : List Char → Option (List Char)
  | a :: b :: ':' :: c :: d :: ':' :: e :: f :: s => do
    let second ← fixed? [e, f]
    if isClock a b c d && second ≤ 60 then
      match s with
      | '.' :: g :: s => if g.isDigit then some (s.dropWhile Char.isDigit) else none
      | s => some s
    else none
  | _ => none

/-- A date, a time, or both with or without a zone. -/
def isDatetime (s : List Char) : Bool :=
  match afterTime? s with
  | some rest => rest.isEmpty
  | none =>
    isDate (s.take 10) &&
      match s.drop 10 with
      | [] => true
      | c :: s => (c == 'T' || c == 't' || c == ' ') &&
        (afterTime? s).any fun rest => rest.isEmpty || isZone rest

/-- The value that an unquoted text writes. -/
def word? (s : List Char) : Option Value :=
  if s = ['t', 'r', 'u', 'e'] then some (.boolean true)
  else if s = ['f', 'a', 'l', 's', 'e'] then some (.boolean false)
  else if isDatetime s then some .datetime
  else (integer? s).map .integer <|> (float? s).map .float

end Diversity.Toml
