import Diversity.Toml.Number
import Diversity.Toml.Text
/-! TOML documents from their text. -/
namespace Diversity.Toml

open Reader

def isBareKey (c : Char) : Bool := c.isAlphanum || c == '_' || c == '-'

/-- One part of a key. -/
def keyPart : Reader String := do
  match ← peek with
  | some '"' | some '\'' => lineString
  | _ =>
    match ← takeWhile isBareKey with
    | [] => failure
    | cs => return String.ofList cs

/-- The parts of a key after the first. -/
def keyRest : Nat → Reader (List String)
  | 0 => return []
  | fuel + 1 => do
    blanks
    if ← skip? ['.'] then
      blanks
      let part ← keyPart
      return part :: (← keyRest fuel)
    else return []

/-- A dotted key: the parts that lead to it, and its last part. -/
def key : Reader (List String × String) := do
  blanks
  let first ← keyPart
  let parts := first :: (← keyRest (← get).length)
  return (parts.dropLast, parts.getLast?.getD first)

/-- Blanks, comments and line ends between the items of an array. -/
def gaps : Nat → Reader Unit
  | 0 => return
  | fuel + 1 => do
    blanks
    match ← peek with
    | some '#' =>
      comment
      gaps fuel
    | some '\n' | some '\r' =>
      newline
      gaps fuel
    | _ => return

def gap : Reader Unit := do gaps ((← get).length + 1)

/-- The items of an array up to its closing bracket; a comma may follow the last. -/
def items (value : Reader Value) : Nat → Reader (List Value)
  | 0 => failure
  | fuel + 1 => do
    gap
    if ← skip? [']'] then return []
    let v ← value
    gap
    match ← next with
    | ',' => return v :: (← items value fuel)
    | ']' => return [v]
    | _ => failure

/-- The entries of a table up to its closing brace. -/
def pairs (value : Reader Value) : Nat → Entries → Reader Entries
  | 0, _ => failure
  | fuel + 1, entries => do
    let (path, name) ← key
    eat '='
    blanks
    let v ← value
    blanks
    let entries ← (entries.insert path name v .braces : Option Entries)
    match ← next with
    | ',' => pairs value fuel entries
    | '\x7d' => return entries
    | _ => failure

def braces (value : Reader Value) : Reader Value := do
  blanks
  if ← skip? ['\x7d'] then return .table .braces []
  return .table .braces (← pairs value ((← get).length + 1) [])

def isWordChar (c : Char) : Bool := c.isAlphanum || "+-_.:".toList.contains c

/-- A value without quotes or brackets. A date and a time may have a blank between them. -/
def word : Reader Value := do
  let front ← takeWhile isWordChar
  let rest ← get
  match rest with
  | ' ' :: c :: _ =>
    if isDate front && c.isDigit then
      let _ ← next
      let time ← takeWhile isWordChar
      (word? (front ++ ' ' :: time) : Option Value)
    else (word? front : Option Value)
  | _ => (word? front : Option Value)

/-- A value with at most `depth` brackets or braces open. -/
def value : Nat → Reader Value
  | 0 => do
    match ← peek with
    | some '"' | some '\'' => return .string (← string)
    | _ => word
  | depth + 1 => do
    match ← peek with
    | some '"' | some '\'' => return .string (← string)
    | some '[' =>
      let _ ← next
      return .array (← items (value depth) ((← get).length + 1))
    | some '\x7b' =>
      let _ ← next
      braces (value depth)
    | _ => word

/-- How many brackets and braces may be open. -/
def maxDepth : Nat := 79

/-- A document so far: its tables, and the table that the last header named. -/
structure Document where
  entries : Entries
  header : List String
  deriving Inhabited

namespace Document

/-- Reads a header and opens its table. -/
def readHeader (d : Document) : Reader Document := do
  if ← skip? ['[', '['] then
    let (path, name) ← key
    blanks
    eat ']'
    eat ']'
    restOfLine
    return ⟨← (d.entries.openTables path name : Option Entries), path ++ [name]⟩
  else
    eat '['
    let (path, name) ← key
    blanks
    eat ']'
    restOfLine
    return ⟨← (d.entries.openTable path name : Option Entries), path ++ [name]⟩

/-- Reads a key and its value into the open table. -/
def readPair (d : Document) : Reader Document := do
  let (path, name) ← key
  blanks
  eat '='
  blanks
  let v ← value maxDepth
  restOfLine
  let entries ← (Entries.follow false (Entries.insert path name v) d.header .header d.entries : Option Entries)
  return { d with entries }

/-- Reads lines up to the end of the text. -/
def lines : Nat → Document → Reader Document
  | 0, _ => failure
  | fuel + 1, d => do
    blanks
    match ← peek with
    | none => return d
    | some '#' =>
      comment
      lineEnd
      lines fuel d
    | some '\n' | some '\r' =>
      newline
      lines fuel d
    | some '[' => lines fuel (← d.readHeader)
    | some _ => lines fuel (← d.readPair)

end Document

/-- The tables of a document. A byte order mark in front of it does not count. -/
def read? (text : String) : Option Entries :=
  let s := match text.toList with
    | '\ufeff' :: s => s
    | s => s
  (Document.lines (s.length + 1) ⟨[], []⟩ s).map (·.1.entries)

end Diversity.Toml
