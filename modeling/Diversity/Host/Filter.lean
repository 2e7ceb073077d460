import Diversity.Host.Basic
/-! Filters that need no system: copying a text, replacing its characters, refusing it. -/
namespace Diversity.Filter

/-- All characters from one to another. -/
def run (first last : Char) : List Char :=
  (List.range (last.toNat + 1 - first.toNat)).map fun k => Char.ofNat (first.toNat + k)

/-- The character that a letter after a backslash stands for. -/
def escaped : Char → Char
  | 'a' => '\x07'
  | 'b' => '\x08'
  | 'f' => '\x0c'
  | 'n' => '\n'
  | 'r' => '\r'
  | 't' => '\t'
  | 'v' => '\x0b'
  | c => c

/-- The characters of a class, in their order. -/
def members? : List Char → Option (List Char)
  | ['l', 'o', 'w', 'e', 'r'] => some (run 'a' 'z')
  | ['u', 'p', 'p', 'e', 'r'] => some (run 'A' 'Z')
  | ['d', 'i', 'g', 'i', 't'] => some (run '0' '9')
  | ['a', 'l', 'p', 'h', 'a'] => some (run 'A' 'Z' ++ run 'a' 'z')
  | ['a', 'l', 'n', 'u', 'm'] => some (run '0' '9' ++ run 'A' 'Z' ++ run 'a' 'z')
  | ['s', 'p', 'a', 'c', 'e'] => some (run '\t' '\r' ++ [' '])
  | ['b', 'l', 'a', 'n', 'k'] => some ['\t', ' ']
  | ['p', 'u', 'n', 'c', 't'] => some ((run '!' '~').filter (!·.isAlphanum))
  | _ => none

/-- The characters that a set of `tr` stands for: `a-z` is all from `a` to `z`, and `[:name:]` is a
class. -/
def characters : List Char → Option (List Char)
  | '[' :: ':' :: a :: b :: c :: d :: e :: ':' :: ']' :: s => do
    return (← members? [a, b, c, d, e]) ++ (← characters s)
  | '\\' :: c :: s => do return escaped c :: (← characters s)
  | a :: '-' :: b :: s => if a ≤ b then do return run a b ++ (← characters s) else none
  | c :: s => do return c :: (← characters s)
  | [] => some []

/-- The character that takes the place of `c`: the one at its last place in the first set. The last
character of the second set goes on for ever. -/
def replacement (source target : List Char) (c : Char) : Char :=
  let pairs := source.zip (target ++ List.replicate source.length (target.getLast?.getD c))
  (pairs.reverse.lookup c).getD c

def replace (source target : List Char) (text : String) : String :=
  String.ofList (text.toList.map (replacement source target))

def delete (set : List Char) (text : String) : String :=
  String.ofList (text.toList.filter (!set.contains ·))

/-- Leaves one of several equal characters in a row, if they are in the set. -/
def squeeze (set : List Char) : List Char → List Char
  | c :: d :: s => if c == d && set.contains c then squeeze set (d :: s) else c :: squeeze set (d :: s)
  | s => s

/-- What a filter makes of a text, by the filter's name. -/
def apply (program : String) (arguments : List String) (text : String) : Except FilterFault String :=
  match program, arguments with
  | "cat", arguments =>
    if arguments.all (· == "-") then .ok text else .error (.failed "cat: cannot read files")
  | "false", _ => .error (.failed "")
  | "tr", ["-d", set] =>
    match characters set.toList with
    | some set => .ok (delete set text)
    | none => .error (.failed "tr: range out of order")
  | "tr", ["-s", set] =>
    match characters set.toList with
    | some set => .ok (String.ofList (squeeze set text.toList))
    | none => .error (.failed "tr: range out of order")
  | "tr", [source, target] =>
    match characters source.toList, characters target.toList with
    | some source, some (c :: target) => .ok (replace source (c :: target) text)
    | _, _ => .error (.failed "tr: bad sets")
  | "tr", _ => .error (.failed "tr: wrong number of sets")
  | _, _ => .error (.unknown FileFault.missing.message)

end Diversity.Filter
