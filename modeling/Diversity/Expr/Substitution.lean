import Diversity.Expr.Basic
/-! Replacing nodes by their identities. -/
namespace Diversity

/-- Replacements by the identity of the node replaced. Of two entries for one node the first counts. -/
abbrev Substitution := List (NodeId × Expr)

namespace Expr

mutual

/-- The expression with every outermost node `n` for which `f n = some r` replaced by `r`. -/
def replaceNodes (f : Expr → Option Expr) : Expr → Expr
  | e@(.var id v) => (f e).getD (.var id v)
  | e@(.ref id target) => (f e).getD (.ref id (replaceNodes f target))
  | e@(.deref id target) => (f e).getD (.deref id (replaceNodes f target))
  | e@(.index id target position) =>
    (f e).getD (.index id (replaceNodes f target) (replaceNodes f position))
  | e@(.call id target args) => (f e).getD (.call id (replaceNodes f target) (replaceNodesOfAll f args))
  | e@(.op id symbol operands) => (f e).getD (.op id symbol (replaceNodesOfAll f operands))
  | e@(.value id literal) => (f e).getD (.value id literal)
  | e@(.cast id target type) => (f e).getD (.cast id (replaceNodes f target) type)
  | e@(.sizeofExpr id target) => (f e).getD (.sizeofExpr id (replaceNodes f target))
  | e@(.sizeofType id type) => (f e).getD (.sizeofType id type)

def replaceNodesOfAll (f : Expr → Option Expr) : List Expr → List Expr
  | [] => []
  | e :: es => replaceNodes f e :: replaceNodesOfAll f es

end

/-- Substitution inside the parts of replacements, at most `depth` replacements deep. -/
def substituteWithin (σ : Substitution) : Nat → Expr → Expr
  | 0, e => e
  | depth + 1, e => e.replaceNodes fun n =>
    (σ.lookup n.id).map fun r => r.mapChildren (substituteWithin σ depth)

/-- Replaces every node that `σ` knows, also inside the parts of a replacement. A replacement that
does not lead back to its own node is at most as deep as `σ` is long. -/
def substitute (σ : Substitution) (e : Expr) : Expr := e.substituteWithin σ σ.length

end Expr

end Diversity
