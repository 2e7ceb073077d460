import Diversity.Text.Printable
/-! Text between double quotes, with escapes for what would not show. -/
namespace Diversity.Text

/-- The hexadecimal digits of a number, in lower case. -/
def hex (n : Nat) : String := String.ofList (Nat.toDigits 16 n)

def escape (c : Char) : String :=
  if c == '"' then "\\\""
  else if c == '\\' then "\\\\"
  else if c == '\n' then "\\n"
  else if c == '\r' then "\\r"
  else if c == '\t' then "\\t"
  else if c == '\x00' then "\\0"
  else if isPrintable c then String.ofList [c]
  else "\\u\x7b" ++ hex c.toNat ++ "\x7d"

def quoted (s : String) : String := "\"" ++ String.join (s.toList.map escape) ++ "\""

end Diversity.Text
