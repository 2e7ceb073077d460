import Diversity.CType.Basic
import Diversity.Text.Blank
/-! The family of a type, and which families flow into which. -/
namespace Diversity

inductive Family where
  | integral
  | floating
  | boolean
  | pointer
  | any
  | void
  | complex
  deriving DecidableEq, Inhabited

namespace Family

/-- The words that an integral type is spelled with. -/
def integralWords : List String := ["char", "short", "int", "long", "signed", "unsigned"]

/-- The names that stand for an integral type as a whole. -/
def integralNames : List String :=
  ["size_t", "ssize_t", "off_t", "pid_t", "time_t", "intptr_t", "uintptr_t", "int8_t", "int16_t",
    "int32_t", "int64_t", "uint8_t", "uint16_t", "uint32_t", "uint64_t"]

/-- The family of a named type; a name without words counts as integral. -/
def ofName (name : String) : Family :=
  if name = "void" then .void
  else if ["bool", "_Bool"].contains name then .boolean
  else if ["float", "double", "long double"].contains name then .floating
  else if name = "any" then .any
  else if integralNames.contains name then .integral
  else if (Text.words name).all integralWords.contains then .integral
  else .complex

def isArithmetic : Family → Bool
  | .integral | .floating | .boolean => true
  | _ => false

/-- A value of one family may stand where another is wanted: arithmetic families convert into each
other, and a pointer converts into any of them. -/
def accepts (expected actual : Family) : Bool :=
  expected == actual ||
    (expected.isArithmetic && (actual.isArithmetic || actual == .pointer))

end Family

/-- Arrays and functions count as pointers. -/
def CType.family : CType → Family
  | .named name => .ofName name
  | _ => .pointer

namespace CType

mutual

/-- A value of type `actual` may be given where `expected` is wanted. -/
def accepts (expected actual : CType) : Bool :=
  expected.family == .any || actual.family == .any ||
    match expected, actual with
    | .named left, .named right =>
      if Family.ofName left = .complex ∨ Family.ofName right = .complex then left == right
      else (Family.ofName left).accepts (Family.ofName right)
    | .named left, _ => Family.ofName left == .boolean
    | .pointer left, .pointer right
    | .pointer left, .array right _
    | .array left _, .array right _
    | .array left _, .pointer right => left.isVoid || right.isVoid || accepts left right
    | .pointer left, .function result params variadic =>
      accepts left (.function result params variadic)
    | .function left leftParams leftVariadic, .function right rightParams rightVariadic =>
      leftVariadic == rightVariadic && accepts left right && acceptsAll leftParams rightParams
    | _, _ => false

/-- Two lists of one length whose members agree in order. -/
def acceptsAll : (expected actual : List CType) → Bool
  | [], [] => true
  | left :: lefts, right :: rights => accepts left right && acceptsAll lefts rights
  | _, _ => false

end

end CType

end Diversity
