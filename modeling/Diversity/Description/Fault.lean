import Diversity.Decimal.Printer
import Diversity.Text.Quoted
/-! What can be wrong with the text of a description. -/
namespace Diversity.Description

/-- A value that stands where another kind is wanted. -/
inductive Found where
  | null
  | boolean (b : Bool)
  | integer (n : Int)
  | float (x : Float)
  | text (s : String)
  | sequence
  | map
  | bareTag
  deriving Inhabited

def Found.message : Found → String
  | .null => "null"
  | .boolean b => "boolean `" ++ (if b then "true" else "false") ++ "`"
  | .integer n => "integer `" ++ toString n ++ "`"
  | .float x => "floating point `" ++ Decimal.render .compact x ++ "`"
  | .text s => "string " ++ Text.quoted s
  | .sequence => "sequence"
  | .map => "map"
  | .bareTag => "unit variant"

/-- A value that does not fit the form of a description. -/
inductive Misfit where
  | missingField (name : String)
  | duplicateField (name : String)
  | unknownField (name : String) (known : List String)
  | unknownTag (name : String) (known : List String)
  | wrongKind (found : Found) (wanted : String)
  | tooShort (length : Nat) (wanted : String)
  deriving Inhabited

/-- The names to choose from. -/
def alternatives : List String → String
  | [a] => "`" ++ a ++ "`"
  | [a, b] => "`" ++ a ++ "` or `" ++ b ++ "`"
  | names => "one of " ++ ", ".intercalate (names.map fun a => "`" ++ a ++ "`")

def Misfit.message : Misfit → String
  | .missingField name => "missing field `" ++ name ++ "`"
  | .duplicateField name => "duplicate field `" ++ name ++ "`"
  | .unknownField name known => "unknown field `" ++ name ++ "`, expected " ++ alternatives known
  | .unknownTag name known => "unknown variant `" ++ name ++ "`, expected " ++ alternatives known
  | .wrongKind found wanted => "invalid type: " ++ found.message ++ ", expected " ++ wanted
  | .tooShort length wanted => "invalid length " ++ toString length ++ ", expected " ++ wanted

inductive Cause where
  /-- The text is no JSON, or has more or other parts than its place admits. -/
  | malformed
  /-- The text ends too early. -/
  | truncated
  | misfit (m : Misfit)
  deriving Inhabited

/-- A cause, and the line where it showed once that is known. -/
structure Fault where
  cause : Cause
  line : Option Nat
  deriving Inhabited

def Cause.message : Cause → String
  | .malformed => "not well-formed"
  | .truncated => "unexpected end"
  | .misfit m => m.message

def Fault.message (f : Fault) : String :=
  f.cause.message ++ f.line.elim "" (" at line " ++ toString ·)

end Diversity.Description
