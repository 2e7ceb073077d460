import Diversity.Text.Digits
/-! The characters and strings of TOML. -/
namespace Diversity.Toml

/-- A step over a text; it may find nothing suitable. -/
abbrev Reader := StateT (List Char) Option

namespace Reader

def peek : Reader (Option Char) := do return (← get).head?

def next : Reader Char := fun
  | [] => none
  | c :: cs => some (c, cs)

def eat (c : Char) : Reader Unit := do
  if (← next) == c then return else failure

def takeWhile (p : Char → Bool) : Reader (List Char) := fun s => some (s.takeWhile p, s.dropWhile p)

/-- Steps over a text if it is in front. -/
def skip? (front : List Char) : Reader Bool := fun s =>
  if front.isPrefixOf s then some (true, s.drop front.length) else some (false, s)

end Reader

def isBlank (c : Char) : Bool := c == ' ' || c == '\t'

/-- Characters that can stand in comments and between quotes. -/
def isPlain (c : Char) : Bool := c == '\t' || (' ' ≤ c && c ≤ '~') || 0x80 ≤ c.toNat

open Reader

def blanks : Reader Unit := do
  let _ ← takeWhile isBlank

def newline : Reader Unit := do
  match ← next with
  | '\n' => return
  | '\r' => eat '\n'
  | _ => failure

/-- The end of a line, or of the text. -/
def lineEnd : Reader Unit := do
  if (← peek).isNone then return else newline

/-- A comment, if there is one; it does not include the end of its line. -/
def comment : Reader Unit := do
  if ← skip? ['#'] then
    let _ ← takeWhile isPlain

/-- What may follow on a line. -/
def restOfLine : Reader Unit := do
  blanks
  comment
  lineEnd

/-- The character with the given number, if it has one. -/
def scalar? (n : Nat) : Option Char := if n.isValidChar then some (Char.ofNat n) else none

/-- The character of an escape with one letter. -/
def escape? : Char → Option Char
  | 'b' => some '\x08'
  | 't' => some '\t'
  | 'n' => some '\n'
  | 'f' => some '\x0c'
  | 'r' => some '\r'
  | '"' => some '"'
  | '\\' => some '\\'
  | _ => none

/-- The rest of a string with escapes; `acc` are its characters so far in reverse. -/
def basicRest (acc : List Char) : List Char → Option (List Char × List Char)
  | '"' :: s => some (acc, s)
  | '\\' :: 'u' :: a :: b :: c :: d :: s => do
    basicRest ((← scalar? (← Text.ofHexDigits? [a, b, c, d])) :: acc) s
  | '\\' :: 'U' :: a :: b :: c :: d :: e :: f :: g :: h :: s => do
    basicRest ((← scalar? (← Text.ofHexDigits? [a, b, c, d, e, f, g, h])) :: acc) s
  | '\\' :: c :: s => do basicRest ((← escape? c) :: acc) s
  | c :: s => if isPlain c then basicRest (c :: acc) s else none
  | [] => none

/-- The rest of a string without escapes. -/
def literalRest (acc : List Char) : List Char → Option (List Char × List Char)
  | '\'' :: s => some (acc, s)
  | c :: s => if isPlain c then literalRest (c :: acc) s else none
  | [] => none

/-- Whether a line ends here, but for blanks. -/
def endsLine (s : List Char) : Bool :=
  match s.dropWhile isBlank with
  | '\n' :: _ => true
  | '\r' :: '\n' :: _ => true
  | _ => false

/-- The rest of a string with escapes over several lines. Up to two quotes may stand anywhere, also
before the closing ones. After a backslash at the end of a line, `trim` drops blanks and lines. -/
def basicLinesRest (trim : Bool) (acc : List Char) : List Char → Option (List Char × List Char)
  | '"' :: '"' :: '"' :: '"' :: '"' :: '"' :: _ => none
  | '"' :: '"' :: '"' :: '"' :: '"' :: s => some ('"' :: '"' :: acc, s)
  | '"' :: '"' :: '"' :: '"' :: s => some ('"' :: acc, s)
  | '"' :: '"' :: '"' :: s => some (acc, s)
  | '\r' :: '\n' :: s => basicLinesRest trim (if trim then acc else '\n' :: acc) s
  | '\n' :: s => basicLinesRest trim (if trim then acc else '\n' :: acc) s
  | '\\' :: 'u' :: a :: b :: c :: d :: s => do
    basicLinesRest false ((← scalar? (← Text.ofHexDigits? [a, b, c, d])) :: acc) s
  | '\\' :: 'U' :: a :: b :: c :: d :: e :: f :: g :: h :: s => do
    basicLinesRest false ((← scalar? (← Text.ofHexDigits? [a, b, c, d, e, f, g, h])) :: acc) s
  | '\\' :: c :: s =>
    if endsLine (c :: s) then
      if c == '\r' || c == '\n' || isBlank c then basicLinesRest true acc s else none
    else do basicLinesRest false ((← escape? c) :: acc) s
  | c :: s =>
    if trim && isBlank c then basicLinesRest true acc s
    else if isPlain c then basicLinesRest false (c :: acc) s
    else none
  | [] => none

/-- The rest of a string without escapes over several lines. -/
def literalLinesRest (acc : List Char) : List Char → Option (List Char × List Char)
  | '\'' :: '\'' :: '\'' :: '\'' :: '\'' :: '\'' :: _ => none
  | '\'' :: '\'' :: '\'' :: '\'' :: '\'' :: s => some ('\'' :: '\'' :: acc, s)
  | '\'' :: '\'' :: '\'' :: '\'' :: s => some ('\'' :: acc, s)
  | '\'' :: '\'' :: '\'' :: s => some (acc, s)
  | '\r' :: '\n' :: s => literalLinesRest ('\n' :: acc) s
  | '\n' :: s => literalLinesRest ('\n' :: acc) s
  | c :: s => if isPlain c then literalLinesRest (c :: acc) s else none
  | [] => none

/-- The text that a scan gathers in reverse. -/
def gathered (scan : List Char → Option (List Char × List Char)) : Reader String := fun s => do
  let (acc, rest) ← scan s
  return (String.ofList acc.reverse, rest)

/-- A newline right after the opening quotes does not count. -/
def dropFirstNewline : Reader Unit := do
  if !(← skip? ['\n']) then
    let _ ← skip? ['\r', '\n']

/-- A string on one line. -/
def lineString : Reader String := do
  match ← next with
  | '"' => gathered (basicRest [])
  | '\'' => gathered (literalRest [])
  | _ => failure

/-- A string of any kind. -/
def string : Reader String := do
  if ← skip? ['"', '"', '"'] then
    dropFirstNewline
    gathered (basicLinesRest false [])
  else if ← skip? ['\'', '\'', '\''] then
    dropFirstNewline
    gathered (literalLinesRest [])
  else lineString

end Diversity.Toml
