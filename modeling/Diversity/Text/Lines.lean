/-! Lines of a text, and places in it given by line and column. -/
namespace Diversity.Text

/-- The lines of a text. A newline belongs to the line that it ends; nothing follows a last newline. -/
def lines : List Char → List (List Char)
  | [] => []
  | c :: cs =>
    if c = '\n' then [c] :: lines cs
    else match lines cs with
      | [] => [[c]]
      | l :: ls => (c :: l) :: ls

/-- How many bytes the characters take. -/
def byteLength : List Char → Nat
  | [] => 0
  | c :: cs => c.utf8Size + byteLength cs

/-- The byte offset of a line and column, both counted from one, if the first of the lines is at offset
`start`. A column beyond the line is its end, and a line beyond the text is the text's end. -/
def offsetIn (start : Nat) : List (List Char) → Nat → Nat → Nat
  | [], _, _ => start
  | l :: ls, line, column =>
    if line = 1 then start + min (column - 1) (byteLength l)
    else offsetIn (start + byteLength l) ls (line - 1) column

def offset (source : String) (line column : Nat) : Nat := offsetIn 0 (lines source.toList) line column

end Diversity.Text
