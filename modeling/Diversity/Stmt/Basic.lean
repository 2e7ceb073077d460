import Diversity.Expr.Basic
/-! Statements, their calls and their copies. -/
namespace Diversity

/-- A call's callee: its name, and the block that the name stood for. -/
structure BlockRef where
  name : String
  id : BlockId
  deriving DecidableEq, Inhabited

mutual

inductive Stmt where
  | assign (id : NodeId) (target value : Expr)
  | call (id : NodeId) (callee : BlockRef)
  /-- The first branch whose condition holds is taken. -/
  | choice (id : NodeId) (branches : List Branch)
  | loop (id : NodeId) (condition : Expr) (body : List Stmt)
  | expr (id : NodeId) (e : Expr)
  | group (id : NodeId) (body : List Stmt)

/-- A branch without a condition is always taken. -/
inductive Branch where
  | mk (condition : Option Expr) (body : List Stmt)

end

instance : Inhabited Stmt := ⟨.group default []⟩

instance : Inhabited Branch := ⟨.mk none []⟩

/-- A node of a statement: a statement or an expression. -/
inductive Node where
  | stmt (s : Stmt)
  | expr (e : Expr)

namespace Branch

def condition : Branch → Option Expr
  | .mk condition _ => condition

def body : Branch → List Stmt
  | .mk _ body => body

end Branch

namespace Stmt

def id : Stmt → NodeId
  | .assign id _ _ | .call id _ | .choice id _ | .loop id _ _ | .expr id _ | .group id _ => id

end Stmt

def Node.id : Node → NodeId
  | .stmt s => s.id
  | .expr e => e.id

def Expr.asNodes (e : Expr) : List Node := e.nodes.map .expr

namespace Stmt

mutual

/-- All nodes; a node comes before its parts. -/
def nodes : Stmt → List Node
  | s@(.assign _ target value) => .stmt s :: (target.asNodes ++ value.asNodes)
  | s@(.call _ _) => [.stmt s]
  | s@(.choice _ branches) => .stmt s :: nodesOfBranches branches
  | s@(.loop _ condition body) => .stmt s :: (condition.asNodes ++ nodesOfAll body)
  | s@(.expr _ e) => .stmt s :: e.asNodes
  | s@(.group _ body) => .stmt s :: nodesOfAll body

def nodesOfAll : List Stmt → List Node
  | [] => []
  | s :: ss => nodes s ++ nodesOfAll ss

def nodesOfBranch : Branch → List Node
  | .mk condition body => condition.elim [] Expr.asNodes ++ nodesOfAll body

def nodesOfBranches : List Branch → List Node
  | [] => []
  | b :: bs => nodesOfBranch b ++ nodesOfBranches bs

end

end Stmt

/-- The call that a node is, if it is one. -/
def Node.call? : Node → Option (NodeId × BlockRef)
  | .stmt (.call id callee) => some (id, callee)
  | _ => none

def Node.var? : Node → Option Variable
  | .expr e => e.var?
  | _ => none

namespace Stmt

/-- The calls in a list of statements, in the order of their nodes. -/
def calls (body : List Stmt) : List (NodeId × BlockRef) := (nodesOfAll body).filterMap Node.call?

/-- The variables in a list of statements, in the order of their nodes. -/
def vars (body : List Stmt) : List Variable := (nodesOfAll body).filterMap Node.var?

mutual

/-- Applies `f` to the expressions that a statement holds. -/
def mapExprs (f : Expr → Expr) : Stmt → Stmt
  | .assign id target value => .assign id (f target) (f value)
  | .call id callee => .call id callee
  | .choice id branches => .choice id (mapExprsOfBranches f branches)
  | .loop id condition body => .loop id (f condition) (mapExprsOfAll f body)
  | .expr id e => .expr id (f e)
  | .group id body => .group id (mapExprsOfAll f body)

def mapExprsOfAll (f : Expr → Expr) : List Stmt → List Stmt
  | [] => []
  | s :: ss => mapExprs f s :: mapExprsOfAll f ss

def mapExprsOfBranch (f : Expr → Expr) : Branch → Branch
  | .mk condition body => .mk (condition.map f) (mapExprsOfAll f body)

def mapExprsOfBranches (f : Expr → Expr) : List Branch → List Branch
  | [] => []
  | b :: bs => mapExprsOfBranch f b :: mapExprsOfBranches f bs

end

mutual

/-- Replaces each call, at any depth, by the statements that `f` gives for it; `none` keeps the call.
What `f` gives is not searched for calls again. -/
def mapCalls {m : Type → Type} [Monad m] (f : NodeId → BlockRef → m (Option (List Stmt))) :
    Stmt → m (List Stmt)
  | .assign id target value => return [.assign id target value]
  | .call id callee => do return (← f id callee).getD [.call id callee]
  | .choice id branches => do return [.choice id (← mapCallsOfBranches f branches)]
  | .loop id condition body => do return [.loop id condition (← mapCallsOfAll f body)]
  | .expr id e => return [.expr id e]
  | .group id body => do return [.group id (← mapCallsOfAll f body)]

def mapCallsOfAll {m : Type → Type} [Monad m] (f : NodeId → BlockRef → m (Option (List Stmt))) :
    List Stmt → m (List Stmt)
  | [] => return []
  | s :: ss => do
    let front ← mapCalls f s
    return front ++ (← mapCallsOfAll f ss)

def mapCallsOfBranch {m : Type → Type} [Monad m] (f : NodeId → BlockRef → m (Option (List Stmt))) :
    Branch → m Branch
  | .mk condition body => do return .mk condition (← mapCallsOfAll f body)

def mapCallsOfBranches {m : Type → Type} [Monad m] (f : NodeId → BlockRef → m (Option (List Stmt))) :
    List Branch → m (List Branch)
  | [] => return []
  | b :: bs => do
    let b ← mapCallsOfBranch f b
    return b :: (← mapCallsOfBranches f bs)

end

mutual

/-- A copy in which every node has a new identity. Calls keep their callees. -/
def refresh : Stmt → StateM Supply Stmt
  | .assign _ target value => do
    let target ← target.refresh
    let value ← value.refresh
    return .assign (← Supply.node) target value
  | .call _ callee => return .call (← Supply.node) callee
  | .choice _ branches => do
    let branches ← refreshBranches branches
    return .choice (← Supply.node) branches
  | .loop _ condition body => do
    let condition ← condition.refresh
    let body ← refreshAll body
    return .loop (← Supply.node) condition body
  | .expr _ e => do
    let e ← e.refresh
    return .expr (← Supply.node) e
  | .group _ body => do
    let body ← refreshAll body
    return .group (← Supply.node) body

def refreshAll : List Stmt → StateM Supply (List Stmt)
  | [] => return []
  | s :: ss => do
    let s ← refresh s
    return s :: (← refreshAll ss)

def refreshBranch : Branch → StateM Supply Branch
  | .mk none body => do return .mk none (← refreshAll body)
  | .mk (some condition) body => do
    let condition ← condition.refresh
    return .mk (some condition) (← refreshAll body)

def refreshBranches : List Branch → StateM Supply (List Branch)
  | [] => return []
  | b :: bs => do
    let b ← refreshBranch b
    return b :: (← refreshBranches bs)

end

end Stmt

end Diversity
