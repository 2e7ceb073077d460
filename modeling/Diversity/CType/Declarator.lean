import Diversity.Builtin
/-! Types as C declarators. -/
namespace Diversity.CType

/-- A declarator behind `*` needs parentheses if a bracket would bind first. -/
def bindsTighter : CType → Bool
  | .array _ _ | .function _ _ _ => true
  | _ => false

/-- A parameter list between its parentheses; an empty one is written `void`. -/
def paramText (params : List String) : String :=
  if params.isEmpty then "void" else ", ".intercalate params

mutual

/-- The C declarator of `name` with this type. The empty name gives the bare type, as in casts. -/
def declarator : CType → String → String
  | .named base, name =>
    if name.isEmpty then Builtin.spell base else Builtin.spell base ++ " " ++ name
  | .pointer target, name =>
    declarator target (if target.bindsTighter then "(*" ++ name ++ ")" else "*" ++ name)
  | .array element length, name =>
    declarator element (name ++ "[" ++ length.elim "" (toString ·.toNat) ++ "]")
  | .function result params variadic, name =>
    let params := bareDeclarators params ++ (if variadic then ["..."] else [])
    declarator result (name ++ "(" ++ paramText params ++ ")")

/-- The bare declarators of a list of types. -/
def bareDeclarators : List CType → List String
  | [] => []
  | t :: ts => declarator t "" :: bareDeclarators ts

end

mutual

/-- The names that occur in a type. -/
def names : CType → List String
  | .named name => [name]
  | .pointer target => names target
  | .array element _ => names element
  | .function result params _ => namesOfAll params ++ names result

def namesOfAll : List CType → List String
  | [] => []
  | t :: ts => names t ++ namesOfAll ts

end

end Diversity.CType
