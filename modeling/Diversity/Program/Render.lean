import Diversity.CType.Declarator
import Diversity.Program.Basic
/-! Programs as C text. -/
namespace Diversity

/-- A variable outside all chunks is the library's if the library knows its name. -/
def Variable.isBuiltin (v : Variable) : Bool := v.chunk.isNone && Builtin.isKnown v.name

def Variable.render (v : Variable) : String := if v.isBuiltin then Builtin.spell v.name else v.name

def Variable.declarator (v : Variable) : String := (v.type.getD .void).declarator v.name

namespace Expr

/-- Unary forms that a postfix operator would split. -/
def needsParens : Expr → Bool
  | .ref _ _ | .deref _ _ | .cast _ _ _ => true
  | _ => false

/-- The text before an index or an argument list. -/
def guarded (e : Expr) (rendered : String) : String :=
  if e.needsParens then "(" ++ rendered ++ ")" else rendered

mutual

def render : Expr → String
  | .var _ v => v.render
  | .ref _ target => "&" ++ render target
  | .deref _ target => "*" ++ render target
  | .index _ target position => guarded target (render target) ++ "[" ++ render position ++ "]"
  | .call _ target args =>
    guarded target (render target) ++ "(" ++ ", ".intercalate (renderAll args) ++ ")"
  | .op _ symbol operands =>
    match renderAll operands with
    | [operand] => "(" ++ symbol ++ operand ++ ")"
    | operands => "(" ++ (" " ++ symbol ++ " ").intercalate operands ++ ")"
  | .value _ literal => literal
  | .cast _ target type => "(" ++ type.declarator "" ++ ")" ++ render target
  | .sizeofExpr _ target => "sizeof(" ++ render target ++ ")"
  | .sizeofType _ type => "sizeof(" ++ type.declarator "" ++ ")"

def renderAll : List Expr → List String
  | [] => []
  | e :: es => render e :: renderAll es

end

/-- A condition stands between parentheses, which an operation brings along. -/
def renderCondition : Expr → String
  | e@(.op _ _ _) => e.render
  | e => "(" ++ e.render ++ ")"

/-- The names that one node brings into the text and that the library may know. -/
def ownSymbols : Expr → List String
  | .var _ v => if v.isBuiltin then [v.name] else []
  | .cast _ _ type | .sizeofType _ type => type.names
  | _ => []

/-- The names in an expression that the library may know. -/
def symbols (e : Expr) : List String := e.nodes.flatMap ownSymbols

end Expr

/-- The space in front of a line at the given depth. -/
def indent (depth : Nat) : String := String.join (List.replicate depth "    ")

namespace Stmt

mutual

def render (depth : Nat) : Stmt → String
  | .assign _ target value => indent depth ++ target.render ++ " = " ++ value.render ++ ";\n"
  | .call _ callee => indent depth ++ callee.name ++ "();\n"
  | .choice _ branches => indent depth ++ renderBranches depth true branches ++ "\n"
  | .loop _ condition body =>
    indent depth ++ "while " ++ condition.renderCondition ++ " \x7b\n" ++ renderAll (depth + 1) body ++
      indent depth ++ "\x7d\n"
  | .expr _ e => indent depth ++ e.render ++ ";\n"
  | .group _ body => renderAll depth body

def renderAll (depth : Nat) : List Stmt → String
  | [] => ""
  | s :: ss => render depth s ++ renderAll depth ss

def renderBranch (depth : Nat) (isFirst : Bool) : Branch → String
  | .mk condition body =>
    (match condition with
      | some c => (if isFirst then "if " else " else if ") ++ c.renderCondition
      | none => " else") ++ " \x7b\n" ++ renderAll (depth + 1) body ++ indent depth ++ "\x7d"

def renderBranches (depth : Nat) (isFirst : Bool) : List Branch → String
  | [] => ""
  | b :: bs => renderBranch depth isFirst b ++ renderBranches depth false bs

end

/-- The names in statements that the library may know. -/
def symbols (body : List Stmt) : List String :=
  (nodesOfAll body).flatMap fun
    | .stmt _ => []
    | .expr e => e.ownSymbols

end Stmt

namespace Declaration

/-- A declaration on a line of its own. -/
def render (depth : Nat) (isStatic : Bool) (d : Declaration) : String :=
  indent depth ++ (if isStatic then "static " else "") ++ d.var.declarator ++
    d.initial.elim "" (" = " ++ ·.render) ++ ";\n"

/-- The names in the type. -/
def typeSymbols (d : Declaration) : List String := (d.var.type.getD .void).names

def symbols (d : Declaration) : List String := d.typeSymbols ++ d.initial.elim [] Expr.symbols

/-- An external variable of the library needs its header, any other a line. -/
def renderExtern (d : Declaration) : String :=
  if d.var.isBuiltin then "" else "extern " ++ d.var.declarator ++ ";\n"

def externSymbols (d : Declaration) : List String :=
  if d.var.isBuiltin then [d.name] else d.typeSymbols

end Declaration

namespace Function

def signature (f : Function) : String :=
  f.result.declarator
    (f.name ++ "(" ++ CType.paramText (f.params.map (·.var.declarator)) ++ ")")

def render (f : Function) : String :=
  f.signature ++ " \x7b\n" ++
    String.join (f.statics.map (·.render 1 true)) ++
    String.join (f.locals.map (·.render 1 false)) ++
    Stmt.renderAll 1 f.body ++
    (if f.isMain then indent 1 ++ "return 0;\n" else "") ++ "\x7d\n"

def symbols (f : Function) : List String :=
  f.result.names ++ f.params.flatMap (·.typeSymbols) ++ f.statics.flatMap (·.symbols) ++
    f.locals.flatMap (·.symbols) ++ Stmt.symbols f.body

end Function

namespace Program

def symbols (p : Program) : List String :=
  p.externs.flatMap (·.externSymbols) ++ p.globals.flatMap (·.declaration.symbols) ++
    p.functions.flatMap (·.symbols)

/-- The headers of all library symbols in the program, sorted, each once. -/
def headers (p : Program) : List String :=
  ((p.symbols.filterMap Builtin.header?).eraseDups).mergeSort (fun a b => decide (a ≤ b))

/-- Includes, externs, globals and prototypes, each in a paragraph if there are any, then the
functions. -/
def render (p : Program) : String :=
  let includes := String.join (p.headers.map fun h => "#include <" ++ h ++ ">\n")
  let externs := String.join (p.externs.map (·.renderExtern))
  let globals := String.join (p.globals.map fun g => g.declaration.render 0 g.isStatic)
  let prototypes := String.join ((p.functions.filter (!·.isMain)).map (·.signature ++ ";\n"))
  "\n".intercalate (([includes, externs, globals, prototypes].filter (!·.isEmpty)) ++
    p.functions.map (·.render))

end Program

end Diversity
