import Diversity.Block
import Diversity.Description.Basic
import Diversity.Description.Scope
/-! Terms and statements with their names and types resolved. The nodes are not numbered yet. -/
namespace Diversity.Description

/-- The type that a text writes. -/
def resolveType (part : Part) (text : String) : Except CompileError CType :=
  match CType.parse text with
  | .ok type => .ok type
  | .error error => .error (.type part text error)

namespace Term

mutual

def resolve (part : Part) (scope : Scope) : Term → Except CompileError Expr
  | .var name => do return .var .unnumbered (← scope.resolve part name)
  | .ref target => do return .ref .unnumbered (← resolve part scope target)
  | .deref target => do return .deref .unnumbered (← resolve part scope target)
  | .index target position => do
    let target ← resolve part scope target
    return .index .unnumbered target (← resolve part scope position)
  | .call target args => do
    let target ← resolve part scope target
    return .call .unnumbered target (← resolveAll part scope args)
  | .op symbol operands =>
    if operands.isEmpty then .error (.mismatch part (.noOperand symbol))
    else do return .op .unnumbered symbol (← resolveAll part scope operands)
  | .value literal => .ok (.value .unnumbered literal)
  | .cast target type => do
    let target ← resolve part scope target
    return .cast .unnumbered target (← resolveType part type)
  | .sizeofExpr target => do return .sizeofExpr .unnumbered (← resolve part scope target)
  | .sizeofType type => do return .sizeofType .unnumbered (← resolveType part type)

def resolveAll (part : Part) (scope : Scope) : List Term → Except CompileError (List Expr)
  | [] => .ok []
  | t :: ts => do
    let e ← resolve part scope t
    return e :: (← resolveAll part scope ts)

end

end Term

/-- The block that a call names. -/
def resolveCall (part : Part) (callees : List BlockRef) (name : String) :
    Except CompileError BlockRef :=
  match callees.find? (·.name == name) with
  | some callee => .ok callee
  | none => .error (.unknownBlock part name)

namespace Statement

mutual

def resolve (part : Part) (scope : Scope) (callees : List BlockRef) :
    Statement → Except CompileError Stmt
  | .assign target value => do
    let target ← target.resolve part scope
    return .assign .unnumbered target (← value.resolve part scope)
  | .call name => do return .call .unnumbered (← resolveCall part callees name)
  | .choice arms otherwise =>
    if arms.isEmpty then .error (.mismatch part .noBranch)
    else do
      let branches ← resolveArms part scope callees arms
      return .choice .unnumbered (branches ++ (← resolveOtherwise part scope callees otherwise))
  | .loop condition body => do
    let condition ← condition.resolve part scope
    return .loop .unnumbered condition (← resolveAll part scope callees body)
  | .expr term => do return .expr .unnumbered (← term.resolve part scope)
  | .group body => do return .group .unnumbered (← resolveAll part scope callees body)

def resolveAll (part : Part) (scope : Scope) (callees : List BlockRef) :
    List Statement → Except CompileError (List Stmt)
  | [] => .ok []
  | s :: ss => do
    let s ← resolve part scope callees s
    return s :: (← resolveAll part scope callees ss)

def resolveArm (part : Part) (scope : Scope) (callees : List BlockRef) :
    Arm → Except CompileError Branch
  | .mk condition body => do
    let condition ← condition.resolve part scope
    return .mk (some condition) (← resolveAll part scope callees body)

def resolveArms (part : Part) (scope : Scope) (callees : List BlockRef) :
    List Arm → Except CompileError (List Branch)
  | [] => .ok []
  | a :: as => do
    let b ← resolveArm part scope callees a
    return b :: (← resolveArms part scope callees as)

/-- The last branch has no condition. -/
def resolveOtherwise (part : Part) (scope : Scope) (callees : List BlockRef) :
    Option (List Statement) → Except CompileError (List Branch)
  | none => .ok []
  | some body => do return [.mk none (← resolveAll part scope callees body)]

end

end Statement

end Diversity.Description
