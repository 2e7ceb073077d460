import Diversity.CType.Basic
import Diversity.Text.Digits
/-! Reading a type from its text. -/
namespace Diversity.CType

/-- Why a text is not a type. -/
inductive TextError where
  | unexpectedEnd
  | unexpectedInput (rest : String)
  deriving DecidableEq, Inhabited

def TextError.message : TextError → String
  | .unexpectedEnd => "unexpected end of type"
  | .unexpectedInput rest => "unexpected input `" ++ rest ++ "`"

def TextError.ofRest : List Char → TextError
  | [] => .unexpectedEnd
  | rest => .unexpectedInput (String.ofList rest)

namespace Parser

/-- What became of an attempt at the front of a text. -/
inductive Reading (α : Type) where
  | done (value : α) (rest : List Char)
  /-- Nothing suitable stands here; another form may be tried. -/
  | miss
  /-- The text is refused at `rest`, whatever else might be tried. -/
  | refused (rest : List Char)

def isSpace (c : Char) : Bool := c == ' ' || c == '\t' || c == '\r' || c == '\n'

def skipSpaces (s : List Char) : List Char := s.dropWhile isSpace

theorem length_skipSpaces_le (s : List Char) : (skipSpaces s).length ≤ s.length :=
  (List.dropWhile_sublist isSpace).length_le

def isWordStart (c : Char) : Bool := c.isAlpha || c == '_'

def isWordRest (c : Char) : Bool := c.isAlphanum || c == '_'

/-- A word in front, and the text after it. -/
def word : List Char → Option (List Char × List Char)
  | [] => none
  | c :: s => if isWordStart c then some (c :: s.takeWhile isWordRest, s.dropWhile isWordRest) else none

theorem length_word_lt {s w rest : List Char} (h : word s = some (w, rest)) :
    rest.length < s.length := by
  cases s with
  | nil => simp [word] at h
  | cons c s =>
    simp only [word] at h
    split at h
    · simp only [Option.some.injEq, Prod.mk.injEq] at h
      have := (List.dropWhile_sublist (l := s) isWordRest).length_le
      simp only [← h.2, List.length_cons]
      omega
    · simp at h

/-- The further words of a name: each follows at least one space. -/
def moreWords (s : List Char) : List (List Char) × List Char :=
  if s.head?.any isSpace then
    match h : word (skipSpaces s) with
    | some (w, rest) =>
      have : rest.length < s.length := Nat.lt_of_lt_of_le (length_word_lt h) (length_skipSpaces_le s)
      let (ws, rest') := moreWords rest
      (w :: ws, rest')
    | none => ([], s)
  else ([], s)
termination_by s.length

/-- A name of one or more words, joined by single spaces. -/
def name (s : List Char) : Reading CType :=
  match word s with
  | none => .miss
  | some (w, rest) =>
    let (ws, rest') := moreWords rest
    .done (.named (" ".intercalate ((w :: ws).map String.ofList))) rest'

/-- The rest of an array's brackets after the opening one. A length beyond 64 bits is no length. -/
def arrayLength (s : List Char) : Option (Option UInt64 × List Char) :=
  let s := skipSpaces s
  let digits := s.takeWhile Char.isDigit
  let length : Option (Option UInt64) :=
    if digits = [] then some none
    else if Text.ofDigits digits < UInt64.size then some (some (UInt64.ofNat (Text.ofDigits digits)))
    else none
  match length, skipSpaces (s.dropWhile Char.isDigit) with
  | some n, ']' :: rest => some (n, rest)
  | _, _ => none

theorem length_arrayLength_lt {s rest : List Char} {n : Option UInt64}
    (h : arrayLength s = some (n, rest)) : rest.length < s.length := by
  simp only [arrayLength] at h
  have h₁ := length_skipSpaces_le s
  have h₂ := (List.dropWhile_sublist (l := skipSpaces s) Char.isDigit).length_le
  have h₃ := length_skipSpaces_le ((skipSpaces s).dropWhile Char.isDigit)
  split at h
  · rename_i m rest' _ heq
    simp only [Option.some.injEq, Prod.mk.injEq] at h
    rw [heq] at h₃
    simp only [List.length_cons, h.2] at h₃
    omega
  · simp at h

/-- A parameter is a type or the mark of further ones. -/
inductive Param where
  | type (t : CType)
  | more

/-- The types of a parameter list, and whether the mark ends it; `none` if the mark stands earlier. -/
def params : List Param → Option (List CType × Bool)
  | [] => some ([], false)
  | [.more] => some ([], true)
  | .more :: _ => none
  | .type t :: ps => (params ps).map fun (ts, variadic) => (t :: ts, variadic)

mutual

/-- A type in front of `s`, after spaces. -/
def type (s : List Char) : Reading CType :=
  match h : skipSpaces s with
  | '*' :: rest =>
    have : rest.length < s.length := by have := length_skipSpaces_le s; simp [h] at this; omega
    match type rest with
    | .done target rest => .done (.pointer target) rest
    | other => other
  | '[' :: rest =>
    have : rest.length < s.length := by have := length_skipSpaces_le s; simp [h] at this; omega
    match g : arrayLength rest with
    | some (length, rest) =>
      have := length_arrayLength_lt g
      match type rest with
      | .done element rest => .done (.array element length) rest
      | other => other
    | none => .miss
  | 'f' :: 'n' :: rest =>
    have : rest.length < s.length := by have := length_skipSpaces_le s; simp [h] at this; omega
    match function rest with
    | .miss => name ('f' :: 'n' :: rest)
    | other => other
  | s => name s
termination_by 4 * s.length

/-- A function type after its keyword. A missing result type is `void`. -/
def function (s : List Char) : Reading CType :=
  match h : skipSpaces s with
  | '(' :: rest =>
    have : rest.length < s.length := by have := length_skipSpaces_le s; simp [h] at this; omega
    match paramList rest with
    | .miss => .miss
    | .refused rest => .refused rest
    | .done ps after =>
      match g : skipSpaces after with
      | ')' :: after' =>
        if hlt : after'.length < s.length then
          match type after' with
          | .refused rest => .refused rest
          | .miss => close ps .void after'
          | .done result rest => close ps result rest
        else .miss
      | _ => .miss
  | _ => .miss
termination_by 4 * s.length + 1
where
  close (ps : List Param) (result : CType) (rest : List Char) : Reading CType :=
    match params ps with
    | some (ts, variadic) => .done (.function result ts variadic) rest
    | none => .refused rest

/-- One parameter. -/
def param (s : List Char) : Reading Param :=
  match skipSpaces s with
  | '.' :: '.' :: '.' :: rest => .done .more rest
  | _ =>
    match type s with
    | .done t rest => .done (.type t) rest
    | .miss => .miss
    | .refused rest => .refused rest
termination_by 4 * s.length + 1

/-- Parameters parted by commas, perhaps none. -/
def paramList (s : List Char) : Reading (List Param) :=
  match param s with
  | .miss => .done [] s
  | .refused rest => .refused rest
  | .done p rest =>
    if _h : rest.length < s.length then
      match moreParams rest with
      | .done ps rest => .done (p :: ps) rest
      | other => other
    else .done [p] rest
termination_by 4 * s.length + 2

/-- The parameters after the first. A comma without a parameter is left in the text. -/
def moreParams (s : List Char) : Reading (List Param) :=
  match h : skipSpaces s with
  | ',' :: next =>
    have : next.length < s.length := by have := length_skipSpaces_le s; simp [h] at this; omega
    match param next with
    | .miss => .done [] s
    | .refused rest => .refused rest
    | .done p rest =>
      if _h : rest.length < s.length then
        match moreParams rest with
        | .done ps rest => .done (p :: ps) rest
        | other => other
      else .done [p] rest
  | _ => .done [] s
termination_by 4 * s.length

end

end Parser

/-- The type that a text writes. Spaces may surround it; anything else left over is an error. -/
def parse (text : String) : Except TextError CType :=
  match Parser.type text.toList with
  | .done t rest =>
    match Parser.skipSpaces rest with
    | [] => .ok t
    | rest => .error (.ofRest rest)
  | .miss => .error (.ofRest (Parser.skipSpaces text.toList))
  | .refused rest => .error (.ofRest rest)

end Diversity.CType
