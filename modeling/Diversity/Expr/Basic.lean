import Diversity.CType.Basic
import Diversity.Identity
/-! Expressions, whose nodes carry identities. -/
namespace Diversity

/-- An occurrence of a variable. A variable without a chunk is external, a parameter or a function. -/
structure Variable where
  name : String
  type : Option CType
  chunk : Option ChunkId
  deriving DecidableEq, Inhabited

namespace Variable

/-- Two occurrences with one key are the same variable. -/
def key (v : Variable) : Option ChunkId × String := (v.chunk, v.name)

/-- A variable that belongs to no chunk. -/
def free (name : String) (type : Option CType) : Variable := ⟨name, type, none⟩

/-- Hidden variables cannot be named in a description. -/
def isHidden (v : Variable) : Bool := v.name.toList.head? == some '_'

end Variable

inductive Expr where
  | var (id : NodeId) (v : Variable)
  /-- The address of an expression. -/
  | ref (id : NodeId) (target : Expr)
  | deref (id : NodeId) (target : Expr)
  | index (id : NodeId) (target position : Expr)
  | call (id : NodeId) (target : Expr) (args : List Expr)
  | op (id : NodeId) (symbol : String) (operands : List Expr)
  /-- A literal, as C writes it. -/
  | value (id : NodeId) (literal : String)
  | cast (id : NodeId) (target : Expr) (type : CType)
  | sizeofExpr (id : NodeId) (target : Expr)
  | sizeofType (id : NodeId) (type : CType)
  deriving Inhabited

namespace Expr

def id : Expr → NodeId
  | .var id _ | .ref id _ | .deref id _ | .index id _ _ | .call id _ _ | .op id _ _ | .value id _
  | .cast id _ _ | .sizeofExpr id _ | .sizeofType id _ => id

/-- The parts of a node, from left to right. -/
def children : Expr → List Expr
  | .var _ _ | .value _ _ | .sizeofType _ _ => []
  | .ref _ target | .deref _ target | .cast _ target _ | .sizeofExpr _ target => [target]
  | .index _ target position => [target, position]
  | .call _ target args => target :: args
  | .op _ _ operands => operands

/-- The node with `f` applied to each of its parts. -/
def mapChildren (f : Expr → Expr) : Expr → Expr
  | .var id v => .var id v
  | .ref id target => .ref id (f target)
  | .deref id target => .deref id (f target)
  | .index id target position => .index id (f target) (f position)
  | .call id target args => .call id (f target) (args.map f)
  | .op id symbol operands => .op id symbol (operands.map f)
  | .value id literal => .value id literal
  | .cast id target type => .cast id (f target) type
  | .sizeofExpr id target => .sizeofExpr id (f target)
  | .sizeofType id type => .sizeofType id type

def var? : Expr → Option Variable
  | .var _ v => some v
  | _ => none

/-- A literal zero, the only position that an access path may go through. -/
def isZero : Expr → Bool
  | .value _ literal => literal == "0"
  | _ => false

mutual

/-- All nodes; a node comes before its parts. -/
def nodes : Expr → List Expr
  | e@(.var _ _) | e@(.value _ _) | e@(.sizeofType _ _) => [e]
  | e@(.ref _ target) | e@(.deref _ target) | e@(.cast _ target _) | e@(.sizeofExpr _ target) =>
    e :: nodes target
  | e@(.index _ target position) => e :: (nodes target ++ nodes position)
  | e@(.call _ target args) => e :: (nodes target ++ nodesOfAll args)
  | e@(.op _ _ operands) => e :: nodesOfAll operands

def nodesOfAll : List Expr → List Expr
  | [] => []
  | e :: es => nodes e ++ nodesOfAll es

end

/-- The variables that occur, in order and with repetitions. -/
def vars (e : Expr) : List Variable := e.nodes.filterMap var?

mutual

/-- The text of an expression in messages. -/
def text : Expr → String
  | .var _ v => v.name
  | .ref _ target => "&" ++ text target
  | .deref _ target => "*" ++ text target
  | .index _ target position => text target ++ "[" ++ text position ++ "]"
  | .call _ target args => text target ++ "(" ++ ", ".intercalate (texts args) ++ ")"
  | .op _ symbol operands =>
    match texts operands with
    | [operand] => "(" ++ symbol ++ operand ++ ")"
    | operands => "(" ++ (" " ++ symbol ++ " ").intercalate operands ++ ")"
  | .value _ literal => literal
  | .cast _ target type => "cast<" ++ type.text ++ ">(" ++ text target ++ ")"
  | .sizeofExpr _ target => "sizeof(" ++ text target ++ ")"
  | .sizeofType _ type => "sizeof<" ++ type.text ++ ">"

def texts : List Expr → List String
  | [] => []
  | e :: es => text e :: texts es

end

mutual

/-- Equal up to the identities of nodes and the types of variables. -/
def sameShape : Expr → Expr → Bool
  | .var _ v, .var _ w => v.key == w.key
  | .ref _ s, .ref _ t | .deref _ s, .deref _ t | .sizeofExpr _ s, .sizeofExpr _ t => sameShape s t
  | .index _ s i, .index _ t j => sameShape s t && sameShape i j
  | .call _ s as, .call _ t bs => sameShape s t && sameShapes as bs
  | .op _ f as, .op _ g bs => f == g && sameShapes as bs
  | .value _ a, .value _ b => a == b
  | .cast _ s a, .cast _ t b => decide (a = b) && sameShape s t
  | .sizeofType _ a, .sizeofType _ b => decide (a = b)
  | _, _ => false

def sameShapes : List Expr → List Expr → Bool
  | [], [] => true
  | a :: as, b :: bs => sameShape a b && sameShapes as bs
  | _, _ => false

end

mutual

/-- A copy in which every node has a new identity. -/
def refresh : Expr → StateM Supply Expr
  | .var _ v => return .var (← Supply.node) v
  | .ref _ target => do
    let target ← refresh target
    return .ref (← Supply.node) target
  | .deref _ target => do
    let target ← refresh target
    return .deref (← Supply.node) target
  | .index _ target position => do
    let target ← refresh target
    let position ← refresh position
    return .index (← Supply.node) target position
  | .call _ target args => do
    let target ← refresh target
    let args ← refreshAll args
    return .call (← Supply.node) target args
  | .op _ symbol operands => do
    let operands ← refreshAll operands
    return .op (← Supply.node) symbol operands
  | .value _ literal => return .value (← Supply.node) literal
  | .cast _ target type => do
    let target ← refresh target
    return .cast (← Supply.node) target type
  | .sizeofExpr _ target => do
    let target ← refresh target
    return .sizeofExpr (← Supply.node) target
  | .sizeofType _ type => return .sizeofType (← Supply.node) type

def refreshAll : List Expr → StateM Supply (List Expr)
  | [] => return []
  | e :: es => do
    let e ← refresh e
    return e :: (← refreshAll es)

end

end Expr

end Diversity
