import Diversity.Block
import Diversity.Capture.Basic
/-! Where and how blocks use a variable. -/
namespace Diversity

/-- A capture in a block. Its origin is the outermost node that it covers. -/
structure Usage where
  origin : NodeId
  capture : Capture
  deriving Inhabited

namespace Expr

/-- The capture that an expression is, if it is nothing else. Only position zero belongs to a capture;
any other is evaluated where it stands. -/
def capture? (key : Option ChunkId × String) : Expr → Option Capture
  | .var id v => if v.key = key then some (.base (.var id v)) else none
  | .ref _ target => (capture? key target).map .ref
  | .deref _ target => (capture? key target).map .deref
  | .index _ target position =>
    if position.isZero then (capture? key target).map (.index · position) else none
  | _ => none

/-- The usage that an expression is; `inside` if it is none. -/
def usageOr (key : Option ChunkId × String) (e : Expr) (inside : List Usage) : List Usage :=
  match e.capture? key with
  | some c => [⟨e.id, c⟩]
  | none => inside

mutual

/-- The usages of a variable in an expression that is read. -/
def usages (key : Option ChunkId × String) : Expr → List Usage
  | e@(.var _ _) | e@(.value _ _) | e@(.sizeofType _ _) => usageOr key e []
  | e@(.ref _ target) | e@(.deref _ target) | e@(.cast _ target _) | e@(.sizeofExpr _ target) =>
    usageOr key e (usages key target)
  | e@(.index _ target position) => usageOr key e (usages key target ++ usages key position)
  | e@(.call _ target args) => usageOr key e (usages key target ++ usagesOfAll key args)
  | e@(.op _ _ operands) => usageOr key e (usagesOfAll key operands)

def usagesOfAll (key : Option ChunkId × String) : List Expr → List Usage
  | [] => []
  | e :: es => usages key e ++ usagesOfAll key es

end

/-- The usages in an expression that is assigned to. Only the variable itself is assigned; its parts
are read. -/
def usagesAssigned (key : Option ChunkId × String) : Expr → List Usage
  | .var id v => if v.key = key then [⟨id, .assigned (.base (.var id v))⟩] else []
  | e => usagesOfAll key e.children

end Expr

namespace Stmt

mutual

/-- The usages of a variable in a statement. -/
def usages (key : Option ChunkId × String) : Stmt → List Usage
  | .assign _ target value => target.usagesAssigned key ++ value.usages key
  | .call _ _ => []
  | .choice _ branches => usagesOfBranches key branches
  | .loop _ condition body => condition.usages key ++ usagesOfAll key body
  | .expr _ e => e.usages key
  | .group _ body => usagesOfAll key body

def usagesOfAll (key : Option ChunkId × String) : List Stmt → List Usage
  | [] => []
  | s :: ss => usages key s ++ usagesOfAll key ss

def usagesOfBranch (key : Option ChunkId × String) : Branch → List Usage
  | .mk condition body => condition.elim [] (·.usages key) ++ usagesOfAll key body

def usagesOfBranches (key : Option ChunkId × String) : List Branch → List Usage
  | [] => []
  | b :: bs => usagesOfBranch key b ++ usagesOfBranches key bs

end

end Stmt

namespace Block

/-- The usages of a variable in the block itself. -/
def usages (key : Option ChunkId × String) (b : Block) : List Usage :=
  Stmt.usagesOfAll key b.statements

/-- The usages of a variable in the block and in those that it calls, unless they have been entered. -/
def usagesBelow (bs : BlockSet) (key : Option ChunkId × String) (entered : List String) (b : Block) :
    Except SynthesisError (List Usage) := do
  let below ← b.calls.mapM fun (_, callee) =>
    if _hn : callee.name ∈ entered then .ok []
    else match _hr : bs.resolve callee with
      | .error e => .error e
      | .ok c => usagesBelow bs key (c.name :: entered) c
  return b.usages key ++ below.flatten
termination_by bs.unentered entered
decreasing_by
  have hf := BlockSet.find?_of_resolve _hr
  exact BlockSet.unentered_cons_lt (BlockSet.mem_of_find? hf) (BlockSet.name_of_find? hf ▸ _hn)

end Block

end Diversity
