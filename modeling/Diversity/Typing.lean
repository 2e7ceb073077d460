import Diversity.Builtin
import Diversity.CType.Family
import Diversity.Decimal.Notation
import Diversity.Graph
/-! The types of expressions, and the checks that a graph has to pass. -/
namespace Diversity

/-- Why an expression or a statement has no place in a program. -/
inductive TypeFault where
  | noBranch
  | noOperand (symbol : String)
  | unknownType (name : String)
  | initial (name : String) (expected actual : CType)
  | assignment (target : Expr) (expected actual : CType)
  | condition (e : Expr) (type : CType)
  | dereference (target : Expr) (type : CType)
  | position (e : Expr) (type : CType)
  | indexing (target : Expr) (type : CType)
  | notCallable (target : Expr) (type : CType)
  | arity (target : Expr) (expected actual : Nat)
  | argument (number : Nat) (target : Expr) (expected actual : CType)
  deriving Inhabited

namespace TypeFault

private def quoted (text : String) : String := "`" ++ text ++ "`"

def message : TypeFault → String
  | .noBranch => "`if` needs at least one conditional branch"
  | .noOperand symbol => "operator " ++ quoted symbol ++ " has no operands"
  | .unknownType name => "unknown type " ++ quoted name
  | .initial name expected actual =>
    quoted name ++ " of type " ++ quoted expected.text ++ " cannot start as " ++ quoted actual.text
  | .assignment target expected actual =>
    "cannot assign " ++ quoted actual.text ++ " to " ++ quoted target.text ++ " of type " ++
      quoted expected.text
  | .condition e type => "condition " ++ quoted e.text ++ " has type " ++ quoted type.text
  | .dereference target type =>
    "cannot dereference " ++ quoted target.text ++ " of type " ++ quoted type.text
  | .position e type => "index " ++ quoted e.text ++ " has type " ++ quoted type.text
  | .indexing target type => "cannot index " ++ quoted target.text ++ " of type " ++ quoted type.text
  | .notCallable target type =>
    quoted target.text ++ " of type " ++ quoted type.text ++ " is not callable"
  | .arity target expected actual =>
    quoted target.text ++ " expects " ++ toString expected ++ " argument(s), got " ++ toString actual
  | .argument number target expected actual =>
    "argument " ++ toString number ++ " of " ++ quoted target.text ++ " expects " ++
      quoted expected.text ++ ", got " ++ quoted actual.text

end TypeFault

/-- The type of a literal: strings and characters by their quote, numbers with a point, integers. -/
def literalType (text : String) : CType :=
  match text.toList with
  | '"' :: _ => .pointer (.named "char")
  | '\'' :: _ => .named "char"
  | cs => if cs.contains '.' && (Decimal.read? text).isSome then .named "double" else .named "int"

/-- The operators whose result is a truth value. -/
def comparisons : List String := ["==", "!=", "<", ">", "<=", ">=", "&&", "||", "!"]

/-- An array as a value is a pointer to its first element. -/
def CType.decay : CType → CType
  | .array element _ => .pointer element
  | t => t

/-- The type of an operation, from those of its operands: pointers win over numbers. -/
def operationType (symbol : String) (operands : List CType) : CType :=
  if comparisons.contains symbol then .named "int"
  else match operands.find? (·.family == .pointer) with
    | some t => t.decay
    | none => operands.head?.getD .void

/-- What can be called: functions and pointers to them. -/
def CType.callable? : CType → Option (CType × List CType × Bool)
  | .function result params variadic => some (result, params, variadic)
  | .pointer (.function result params variadic) => some (result, params, variadic)
  | _ => none

namespace Expr

mutual

def typeOf : Expr → Except TypeFault CType
  | .var _ v => .ok (v.type.getD .void)
  | .ref _ target => do return .pointer (← typeOf target)
  | .deref _ target => do
    let type ← typeOf target
    match type.pointee with
    | some t => return t
    | none => throw (.dereference target type)
  | .index _ target position => do
    let positionType ← typeOf position
    unless [Family.integral, .boolean, .any].contains positionType.family do
      throw (.position position positionType)
    let type ← typeOf target
    match type.pointee with
    | some t => return t
    | none => throw (.indexing target type)
  | .call _ target args => do
    let callee ← typeOf target
    match callee.callable? with
    | none => throw (.notCallable target callee)
    | some (result, params, variadic) =>
      unless args.length = params.length ∨ (variadic ∧ params.length ≤ args.length) do
        throw (.arity target params.length args.length)
      typeArguments target 1 params args
      return result
  | .op _ symbol operands => do return operationType symbol (← typesOf operands)
  | .value _ literal => .ok (literalType literal)
  | .cast _ target type => do
    let _ ← typeOf target
    return type
  | .sizeofExpr _ target => do
    let _ ← typeOf target
    return .named "size_t"
  | .sizeofType _ _ => .ok (.named "size_t")

def typesOf : List Expr → Except TypeFault (List CType)
  | [] => .ok []
  | e :: es => do
    let type ← typeOf e
    return type :: (← typesOf es)

/-- Types the arguments of a call in order; each is held against its parameter, if it has one. -/
def typeArguments (target : Expr) : Nat → List CType → List Expr → Except TypeFault Unit
  | _, _, [] => .ok ()
  | n, params, arg :: args => do
    let actual ← typeOf arg
    match params with
    | [] => typeArguments target (n + 1) [] args
    | expected :: params =>
      if expected.accepts actual then typeArguments target (n + 1) params args
      else throw (.argument n target expected actual)

end

end Expr

mutual

/-- The first name in a type that is neither a scalar nor known to the library. -/
def CType.checkKnown : CType → Except TypeFault Unit
  | .named name =>
    if Family.ofName name = .complex ∧ !Builtin.isKnown name then .error (.unknownType name) else .ok ()
  | .pointer target => checkKnown target
  | .array element _ => checkKnown element
  | .function result params _ => do
    checkKnown result
    checkAllKnown params

def CType.checkAllKnown : List CType → Except TypeFault Unit
  | [] => .ok ()
  | t :: ts => do
    checkKnown t
    checkAllKnown ts

end

/-- The families that a condition may have. -/
def Family.isTruth : Family → Bool
  | .boolean | .integral | .pointer | .any => true
  | _ => false

def Expr.checkCondition (e : Expr) : Except TypeFault Unit := do
  let type ← e.typeOf
  unless type.family.isTruth do throw (.condition e type)

namespace Stmt

mutual

def check : Stmt → Except TypeFault Unit
  | .assign _ target value => do
    let expected ← target.typeOf
    let actual ← value.typeOf
    unless expected.accepts actual do throw (.assignment target expected actual)
  | .call _ _ => .ok ()
  | .choice _ branches => checkBranches branches
  | .loop _ condition body => do
    condition.checkCondition
    checkAll body
  | .expr _ e => do
    let _ ← e.typeOf
  | .group _ body => checkAll body

def checkAll : List Stmt → Except TypeFault Unit
  | [] => .ok ()
  | s :: ss => do
    check s
    checkAll ss

def checkBranch : Branch → Except TypeFault Unit
  | .mk none body => checkAll body
  | .mk (some condition) body => do
    condition.checkCondition
    checkAll body

def checkBranches : List Branch → Except TypeFault Unit
  | [] => .ok ()
  | b :: bs => do
    checkBranch b
    checkBranches bs

end

end Stmt

/-- A declared type must be known, and an initial value must fit it. -/
def Declaration.check (d : Declaration) : Except TypeFault Unit :=
  match d.var.type with
  | none => .ok ()
  | some expected => do
    expected.checkKnown
    match d.initial with
    | none => return
    | some e =>
      let actual ← e.typeOf
      unless expected.accepts actual do throw (.initial d.name expected actual)

end Diversity
