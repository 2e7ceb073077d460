import Diversity.Decimal.Binary
import Diversity.Description.Fault
import Diversity.Text.Digits
/-! A place in the text of a description, and the JSON scalars that can stand there. -/
namespace Diversity.Description

/-- The text that is left, the line where it starts, and how many more lists and maps may be opened. -/
structure Cursor where
  rest : List Char
  line : Nat
  room : Nat
  deriving Inhabited

namespace Cursor

/-- At most this many lists and maps are open at once. -/
def maxDepth : Nat := 127

def start (text : String) : Cursor := ⟨text.toList, 1, maxDepth⟩

end Cursor

/-- A step over the text. A fault keeps the place that was reached. -/
abbrev Reader := EStateM Fault Cursor

/-- How many lines a character ends. -/
def lineEnds (c : Char) : Nat := if c == '\n' then 1 else 0

namespace Reader

/-- The fault `cause` on the given line. -/
def failOn {α : Type} (cause : Cause) (line : Nat) : Reader α := throw ⟨cause, some line⟩

/-- A fault before the next character. -/
def failHere {α : Type} (cause : Cause) : Reader α := do failOn cause (← get).line

/-- A fault that the next character shows. -/
def failAtNext {α : Type} (cause : Cause) : Reader α := do
  let c ← get
  failOn cause (c.line + c.rest.head?.elim 0 lineEnds)

/-- A fault whose line the value around it will give. -/
def failUnplaced {α : Type} (m : Misfit) : Reader α := throw ⟨.misfit m, none⟩

/-- Gives a fault without a line the line that was reached. -/
def place {α : Type} (r : Reader α) : Reader α := fun c =>
  match r c with
  | .error ⟨cause, none⟩ c => .error ⟨cause, some c.line⟩ c
  | other => other

/-- Reads a value and its closing mark. After a fault in the value the mark is still tried, which moves
the place that was reached. -/
def closeAfter {α : Type} (body : Reader α) (close : Reader Unit) : Reader α := fun c =>
  match body c with
  | .ok a c =>
    match close c with
    | .ok _ c => .ok a c
    | .error f c => .error f c
  | .error f c =>
    match close c with
    | .ok _ c => .error f c
    | .error _ c => .error f c

def peek : Reader (Option Char) := do return (← get).rest.head?

def advance : Reader Unit := modify fun c =>
  match c.rest with
  | [] => c
  | ch :: rest => { c with rest, line := c.line + lineEnds ch }

def next : Reader (Option Char) := do
  let c ← peek
  advance
  return c

def isSpace (c : Char) : Bool := c == ' ' || c == '\n' || c == '\t' || c == '\r'

def skipSpaces : Reader Unit := modify fun c =>
  let spaces := c.rest.takeWhile isSpace
  { c with rest := c.rest.dropWhile isSpace, line := c.line + spaces.count '\n' }

/-- The next character that is not a space, left in place. -/
def peekToken : Reader (Option Char) := do
  skipSpaces
  peek

/-- The rest of a literal word. -/
def word : List Char → Reader Unit
  | [] => return
  | c :: cs => do
    match ← next with
    | none => failHere .truncated
    | some d => if c == d then word cs else failHere .malformed

end Reader

/-- The fault of an escape that is not four hexadecimal digits, looked for in the next four bytes. -/
def hexFault (line : Nat) : Nat → List Char → Fault
  | 0, _ => ⟨.malformed, some line⟩
  | _ + 1, [] => ⟨.truncated, some line⟩
  | bytes + 1, c :: cs => hexFault (line + lineEnds c) (bytes + 1 - c.utf8Size) cs

/-- The character of an escape with one letter. -/
def plainEscape? : Char → Option Char
  | '"' => some '"'
  | '\\' => some '\\'
  | '/' => some '/'
  | 'b' => some '\x08'
  | 'f' => some '\x0c'
  | 'n' => some '\n'
  | 'r' => some '\r'
  | 't' => some '\t'
  | _ => none

def isLeading (n : Nat) : Bool := 0xD800 ≤ n && n ≤ 0xDBFF

def isTrailing (n : Nat) : Bool := 0xDC00 ≤ n && n ≤ 0xDFFF

/-- The rest of a string after its opening quote: its characters in reverse, and the text after it.
`strict` refuses halves of surrogate pairs. -/
def scanString (strict : Bool) (line : Nat) :
    List Char → List Char → Except Fault (List Char × List Char)
  | _, [] => .error ⟨.truncated, some line⟩
  | acc, '"' :: rest => .ok (acc, rest)
  | _, ['\\'] => .error ⟨.truncated, some line⟩
  | acc, '\\' :: 'u' :: a :: b :: c :: d :: rest =>
    match Text.ofHexDigits? [a, b, c, d] with
    | none => .error (hexFault line 4 (a :: b :: c :: d :: rest))
    | some n =>
      if !strict then scanString strict line acc rest
      else if isTrailing n then .error ⟨.malformed, some line⟩
      else if isLeading n then
        match rest with
        | [] | ['\\'] => .error ⟨.truncated, some line⟩
        | '\\' :: 'u' :: e :: f :: g :: h :: rest =>
          match Text.ofHexDigits? [e, f, g, h] with
          | none => .error (hexFault line 4 (e :: f :: g :: h :: rest))
          | some m =>
            if isTrailing m then
              scanString strict line
                (Char.ofNat ((n - 0xD800) * 0x400 + (m - 0xDC00) + 0x10000) :: acc) rest
            else .error ⟨.malformed, some line⟩
        | '\\' :: 'u' :: rest => .error (hexFault line 4 rest)
        | '\\' :: c :: _ => .error ⟨.malformed, some (line + lineEnds c)⟩
        | c :: _ => .error ⟨.malformed, some (line + lineEnds c)⟩
      else scanString strict line (Char.ofNat n :: acc) rest
  | _, '\\' :: 'u' :: rest => .error (hexFault line 4 rest)
  | acc, '\\' :: c :: rest =>
    match plainEscape? c with
    | some e => scanString strict line (e :: acc) rest
    | none => .error ⟨.malformed, some (line + lineEnds c)⟩
  | acc, c :: rest =>
    if c.toNat < 0x20 then
      .error ⟨.malformed, some (if strict then line + lineEnds c else line)⟩
    else scanString strict line (c :: acc) rest

/-- A number: whole numbers of 64 bits are exact. -/
inductive Number where
  | integer (n : Int)
  | float (x : Float)

def Number.found : Number → Found
  | .integer n => .integer n
  | .float x => .float x

/-- The power of ten that a floating-point number is scaled by. -/
def powerOfTen (n : Nat) : Float := (Decimal.mk false 1 (Int.ofNat n)).toFloat

/-- `x * 10 ^ e` by at most a few scalings within the range; `none` beyond it. -/
def scale : Nat → Float → Int → Option Float
  | 0, x, _ => some x
  | steps + 1, x, e =>
    if e.natAbs ≤ 308 then
      if e < 0 then some (x / powerOfTen e.natAbs)
      else
        let y := x * powerOfTen e.natAbs
        if y.isInf then none else some y
    else if x == 0 then some x
    else if 0 ≤ e then none
    else scale steps (x / powerOfTen 308) (e + 308)

/-- The largest whole number that digits are gathered into. -/
def significandLimit : Nat := pow2 64 - 1

/-- Gathers digits while they fit; the digits that were not gathered follow. -/
def gather : Nat → List Char → Nat × List Char
  | n, [] => (n, [])
  | n, c :: cs =>
    let m := 10 * n + (c.toNat - '0'.toNat)
    if m > significandLimit then (n, c :: cs) else gather m cs

/-- The exponents that are told apart. -/
def exponentLimit : Nat := pow2 31 - 1

/-- A floating-point number from its significand; `none` beyond the range. -/
def floatOf (negative : Bool) (significand : Nat) (exponent : Int) : Option Float :=
  (scale 4 (UInt64.ofNat significand).toFloat exponent).map fun x => if negative then -x else x

/-- The line of the character in front. -/
def lineAfter (line : Nat) (s : List Char) : Nat := line + s.head?.elim 0 lineEnds

/-- A value that a scan found, with the text after it. -/
abbrev Scanned (α : Type) := Except Fault (α × List Char)

/-- The exponent of a number after its letter. -/
def scanExponent (line : Nat) (negative : Bool) (significand : Nat) (start : Int) (s : List Char) :
    Scanned Number :=
  let (down, s) := match s with
    | '+' :: s => (false, s)
    | '-' :: s => (true, s)
    | s => (false, s)
  match s with
  | [] => .error ⟨.truncated, some line⟩
  | c :: _ =>
    if !c.isDigit then .error ⟨.malformed, some (line + lineEnds c)⟩
    else
      let digits := s.takeWhile Char.isDigit
      let rest := s.dropWhile Char.isDigit
      let e := Text.ofDigits digits
      if exponentLimit < e then
        if significand ≠ 0 && !down then .error ⟨.malformed, some line⟩
        else .ok (.float (if negative then -0.0 else 0.0), rest)
      else
        match floatOf negative significand (if down then start - Int.ofNat e else start + Int.ofNat e) with
        | some x => .ok (.float x, rest)
        | none => .error ⟨.malformed, some line⟩

/-- What follows the digits of a number's significand, if it is not whole. -/
def scanScale (line : Nat) (negative : Bool) (significand : Nat) (exponent : Int) (s : List Char) :
    Scanned Number :=
  match s with
  | 'e' :: s | 'E' :: s => scanExponent line negative significand exponent s
  | s =>
    match floatOf negative significand exponent with
    | some x => .ok (.float x, s)
    | none => .error ⟨.malformed, some line⟩

/-- The fraction of a number after its point. -/
def scanFraction (line : Nat) (negative : Bool) (significand : Nat) (exponent : Int) (s : List Char) :
    Scanned Number :=
  let digits := s.takeWhile Char.isDigit
  let rest := s.dropWhile Char.isDigit
  let (significand, ungathered) := gather significand digits
  let gathered := digits.length - ungathered.length
  if digits.isEmpty then
    .error ⟨if rest.isEmpty then .truncated else .malformed, some (lineAfter line rest)⟩
  else scanScale line negative significand (exponent - Int.ofNat gathered) rest

/-- A number after its sign. Whole numbers beyond 64 bits, and `-0`, are floating-point numbers. -/
def scanNumber (line : Nat) (negative : Bool) (s : List Char) : Scanned Number :=
  let finish (significand : Nat) (surplus : Nat) (rest : List Char) : Scanned Number :=
    match rest with
    | '.' :: rest => scanFraction line negative significand (Int.ofNat surplus) rest
    | 'e' :: _ | 'E' :: _ => scanScale line negative significand (Int.ofNat surplus) rest
    | rest =>
      if surplus ≠ 0 then scanScale line negative significand (Int.ofNat surplus) rest
      else if !negative then .ok (.integer (Int.ofNat significand), rest)
      else if significand = 0 ∨ pow2 63 < significand then
        .ok (.float (-(UInt64.ofNat significand).toFloat), rest)
      else .ok (.integer (-Int.ofNat significand), rest)
  match s with
  | [] => .error ⟨.truncated, some line⟩
  | '0' :: rest =>
    if rest.head?.any Char.isDigit then .error ⟨.malformed, some line⟩ else finish 0 0 rest
  | c :: _ =>
    if c.isDigit then
      let (significand, surplus) := gather 0 (s.takeWhile Char.isDigit)
      finish significand surplus.length (s.dropWhile Char.isDigit)
    else .error ⟨.malformed, some (line + lineEnds c)⟩

/-- Steps over the exponent of a number whose value is not wanted. -/
def skipExponent (line : Nat) (s : List Char) : Except Fault (List Char) :=
  let s := match s with
    | '+' :: s | '-' :: s => s
    | s => s
  match s with
  | c :: rest =>
    if c.isDigit then .ok (rest.dropWhile Char.isDigit)
    else .error ⟨.malformed, some (line + lineEnds c)⟩
  | [] => .error ⟨.malformed, some line⟩

/-- Steps over a number after its sign. -/
def skipNumber (line : Nat) (s : List Char) : Except Fault (List Char) :=
  let finish (rest : List Char) : Except Fault (List Char) :=
    match rest with
    | '.' :: rest =>
      if !rest.head?.any Char.isDigit then .error ⟨.malformed, some (lineAfter line rest)⟩
      else
        match rest.dropWhile Char.isDigit with
        | 'e' :: rest | 'E' :: rest => skipExponent line rest
        | rest => .ok rest
    | 'e' :: rest | 'E' :: rest => skipExponent line rest
    | rest => .ok rest
  match s with
  | '0' :: rest => if rest.head?.any Char.isDigit then .error ⟨.malformed, some line⟩ else finish rest
  | c :: rest =>
    if c.isDigit then finish (rest.dropWhile Char.isDigit)
    else .error ⟨.malformed, some (line + lineEnds c)⟩
  | [] => .error ⟨.malformed, some line⟩

namespace Reader

/-- Runs a scan of the text in front. -/
def scan {α : Type} (f : Nat → List Char → Scanned α) : Reader α := fun c =>
  match f c.line c.rest with
  | .ok (a, rest) => .ok a { c with rest }
  | .error fault => .error fault c

/-- The rest of a string after its opening quote. -/
def stringRest : Reader String := do
  return String.ofList (← scan fun line s => scanString true line [] s).reverse

/-- The value in front, as far as a fault about its kind names it. Lists and maps are not entered. -/
def found (token : Char) : Reader Found := do
  match token with
  | 'n' => advance; word ['u', 'l', 'l']; return .null
  | 't' => advance; word ['r', 'u', 'e']; return .boolean true
  | 'f' => advance; word ['a', 'l', 's', 'e']; return .boolean false
  | '"' => advance; return .text (← stringRest)
  | '[' => return .sequence
  | '\x7b' => return .map
  | '-' => advance; return (← scan (scanNumber · true)).found
  | c =>
    if c.isDigit then return (← scan (scanNumber · false)).found
    else failAtNext .malformed

/-- The fault of a value of the wrong kind. -/
def wrongKind {α : Type} (token : Char) (wanted : String) : Reader α :=
  place do failUnplaced (.wrongKind (← found token) wanted)

/-- The next token, which must not be missing. -/
def token : Reader Char := do
  match ← peekToken with
  | some c => return c
  | none => failAtNext .truncated

def string : Reader String := do
  match ← token with
  | '"' => advance; stringRest
  | c => wrongKind c "a string"

def boolean : Reader Bool := do
  match ← token with
  | 't' => advance; word ['r', 'u', 'e']; return true
  | 'f' => advance; word ['a', 'l', 's', 'e']; return false
  | c => wrongKind c "a boolean"

/-- `null` for nothing, or a value. -/
def optional {α : Type} (r : Reader α) : Reader (Option α) := do
  match ← peekToken with
  | some 'n' => advance; word ['u', 'l', 'l']; return none
  | _ => return some (← r)

def colon : Reader Unit := do
  match ← peekToken with
  | some ':' => advance
  | some _ => failAtNext .malformed
  | none => failAtNext .truncated

/-- The end of a map. -/
def closeMap : Reader Unit := do
  match ← peekToken with
  | some '\x7d' => advance
  | some _ => failAtNext .malformed
  | none => failAtNext .truncated

/-- The end of a list; a comma is stepped over before the list is refused. -/
def closeList : Reader Unit := do
  match ← peekToken with
  | some ']' => advance
  | some ',' =>
    advance
    skipSpaces
    failAtNext .malformed
  | some _ => failAtNext .malformed
  | none => failAtNext .truncated

/-- Whether a list has a further element; if so its start is in front. -/
def hasElement (isFirst : Bool) : Reader Bool := do
  match ← peekToken with
  | none => failAtNext .truncated
  | some ']' => return false
  | some c =>
    if isFirst then return true
    else if c == ',' then
      advance
      match ← peekToken with
      | none => failAtNext .truncated
      | some ']' => failAtNext .malformed
      | some _ => return true
    else failAtNext .malformed

/-- Whether a map has a further key; if so its opening quote is in front. -/
def hasKey (isFirst : Bool) : Reader Bool := do
  match ← peekToken with
  | none => failAtNext .truncated
  | some '\x7d' => return false
  | some c =>
    if isFirst then
      if c == '"' then return true else failAtNext .malformed
    else if c == ',' then
      advance
      match ← peekToken with
      | none => failAtNext .truncated
      | some '"' => return true
      | some _ => failAtNext .malformed
    else failAtNext .malformed

/-- A key, whose opening quote is in front. -/
def key : Reader String := do
  advance
  stringRest

def skipDigits : Reader Unit := scan fun line s => (skipNumber line s).map fun rest => ((), rest)

def skipString : Reader Unit := scan fun line s =>
  (scanString false line [] s).map fun (_, rest) => ((), rest)

mutual

/-- Steps over a value that nobody asked for. Each recursive step stands for at least half a character. -/
def skipValue : Nat → Reader Unit
  | 0 => failAtNext .malformed
  | fuel + 1 => do
    match ← token with
    | 'n' => advance; word ['u', 'l', 'l']
    | 't' => advance; word ['r', 'u', 'e']
    | 'f' => advance; word ['a', 'l', 's', 'e']
    | '"' => advance; skipString
    | '[' =>
      advance
      match ← peekToken with
      | some ']' => advance
      | none => failAtNext .truncated
      | some _ => skipElements fuel
    | '\x7b' =>
      advance
      match ← peekToken with
      | some '\x7d' => advance
      | none => failAtNext .truncated
      | some _ => skipMembers fuel
    | '-' => advance; skipDigits
    | c => if c.isDigit then skipDigits else failAtNext .malformed

def skipElements : Nat → Reader Unit
  | 0 => failAtNext .malformed
  | fuel + 1 => do
    skipValue fuel
    match ← peekToken with
    | some ',' => advance; skipElements fuel
    | some ']' => advance
    | some _ => failAtNext .malformed
    | none => failAtNext .truncated

def skipMembers : Nat → Reader Unit
  | 0 => failAtNext .malformed
  | fuel + 1 => do
    match ← peekToken with
    | some '"' => advance; skipString
    | some _ => failAtNext .malformed
    | none => failAtNext .truncated
    colon
    skipValue fuel
    match ← peekToken with
    | some ',' => advance; skipMembers fuel
    | some '\x7d' => advance
    | some _ => failAtNext .malformed
    | none => failAtNext .truncated

end

/-- Steps over a value of any kind. -/
def skip : Reader Unit := do skipValue (2 * (← get).rest.length + 2)

end Reader

end Diversity.Description
