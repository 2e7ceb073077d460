import Mathlib.Logic.Basic
import Diversity.Stmt.Basic
/-! Expressions and statements without the identities of their nodes and callees. -/
namespace Diversity

namespace Expr

mutual

/-- The expression with no node numbered. -/
def anonymous : Expr → Expr
  | .var _ v => .var .unnumbered v
  | .ref _ target => .ref .unnumbered (anonymous target)
  | .deref _ target => .deref .unnumbered (anonymous target)
  | .index _ target position => .index .unnumbered (anonymous target) (anonymous position)
  | .call _ target args => .call .unnumbered (anonymous target) (anonymousAll args)
  | .op _ symbol operands => .op .unnumbered symbol (anonymousAll operands)
  | .value _ literal => .value .unnumbered literal
  | .cast _ target type => .cast .unnumbered (anonymous target) type
  | .sizeofExpr _ target => .sizeofExpr .unnumbered (anonymous target)
  | .sizeofType _ type => .sizeofType .unnumbered type

def anonymousAll : List Expr → List Expr
  | [] => []
  | e :: es => anonymous e :: anonymousAll es

end

mutual

/-- A copy under new identities says the same. -/
theorem anonymous_refresh (e : Expr) (s : Supply) : (e.refresh s).1.anonymous = e.anonymous := by
  match e with
  | .var _ _ => rfl
  | .ref _ target => exact congrArg (Expr.ref _) (anonymous_refresh target s)
  | .deref _ target => exact congrArg (Expr.deref _) (anonymous_refresh target s)
  | .index _ target position =>
      exact congrArg₂ (Expr.index _) (anonymous_refresh target s) (anonymous_refresh position _)
  | .call _ target args =>
      exact congrArg₂ (Expr.call _) (anonymous_refresh target s) (anonymousAll_refreshAll args _)
  | .op _ symbol operands => exact congrArg (Expr.op _ symbol) (anonymousAll_refreshAll operands s)
  | .value _ _ => rfl
  | .cast _ target type => exact congrArg (Expr.cast _ · type) (anonymous_refresh target s)
  | .sizeofExpr _ target => exact congrArg (Expr.sizeofExpr _) (anonymous_refresh target s)
  | .sizeofType _ _ => rfl

theorem anonymousAll_refreshAll (es : List Expr) (s : Supply) :
    anonymousAll (refreshAll es s).1 = anonymousAll es := by
  match es with
  | [] => rfl
  | e :: es => exact congrArg₂ List.cons (anonymous_refresh e s) (anonymousAll_refreshAll es _)

end

end Expr

namespace Stmt

mutual

/-- The statement with no node numbered and every callee known by its name alone. -/
def anonymous : Stmt → Stmt
  | .assign _ target value => .assign .unnumbered target.anonymous value.anonymous
  | .call _ callee => .call .unnumbered ⟨callee.name, default⟩
  | .choice _ branches => .choice .unnumbered (anonymousBranches branches)
  | .loop _ condition body => .loop .unnumbered condition.anonymous (anonymousAll body)
  | .expr _ e => .expr .unnumbered e.anonymous
  | .group _ body => .group .unnumbered (anonymousAll body)

def anonymousAll : List Stmt → List Stmt
  | [] => []
  | x :: rest => anonymous x :: anonymousAll rest

def anonymousBranch : Branch → Branch
  | .mk condition body => .mk (condition.map Expr.anonymous) (anonymousAll body)

def anonymousBranches : List Branch → List Branch
  | [] => []
  | b :: rest => anonymousBranch b :: anonymousBranches rest

end

theorem anonymousAll_eq_map (body : List Stmt) : anonymousAll body = body.map anonymous := by
  induction body with
  | nil => rfl
  | cons x rest ih => rw [anonymousAll, ih, List.map_cons]

mutual

theorem anonymous_refresh (x : Stmt) (s : Supply) : (x.refresh s).1.anonymous = x.anonymous := by
  match x with
  | .assign _ target value =>
      exact congrArg₂ (Stmt.assign _) (target.anonymous_refresh s) (value.anonymous_refresh _)
  | .call _ _ => rfl
  | .choice _ branches => exact congrArg (Stmt.choice _) (anonymousBranches_refreshBranches branches s)
  | .loop _ condition body =>
      exact congrArg₂ (Stmt.loop _) (condition.anonymous_refresh s) (anonymousAll_refreshAll body _)
  | .expr _ e => exact congrArg (Stmt.expr _) (e.anonymous_refresh s)
  | .group _ body => exact congrArg (Stmt.group _) (anonymousAll_refreshAll body s)

theorem anonymousAll_refreshAll (body : List Stmt) (s : Supply) :
    anonymousAll (refreshAll body s).1 = anonymousAll body := by
  match body with
  | [] => rfl
  | x :: rest => exact congrArg₂ List.cons (anonymous_refresh x s) (anonymousAll_refreshAll rest _)

theorem anonymousBranch_refreshBranch (b : Branch) (s : Supply) :
    anonymousBranch (refreshBranch b s).1 = anonymousBranch b := by
  match b with
  | .mk none body => exact congrArg (Branch.mk none) (anonymousAll_refreshAll body s)
  | .mk (some condition) body =>
      exact congrArg₂ Branch.mk (congrArg some (condition.anonymous_refresh s))
        (anonymousAll_refreshAll body _)

theorem anonymousBranches_refreshBranches (branches : List Branch) (s : Supply) :
    anonymousBranches (refreshBranches branches s).1 = anonymousBranches branches := by
  match branches with
  | [] => rfl
  | b :: rest =>
      exact congrArg₂ List.cons (anonymousBranch_refreshBranch b s)
        (anonymousBranches_refreshBranches rest _)

end

theorem anonymousAll_of_refreshAll {body copy : List Stmt} {s s' : Supply} (h : refreshAll body s = (copy, s')) :
    anonymousAll copy = anonymousAll body := by
  rw [← anonymousAll_refreshAll body s, h]

end Stmt

end Diversity
