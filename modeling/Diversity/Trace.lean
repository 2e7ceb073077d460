import Diversity.Block
import Diversity.Distinct
/-! The call paths below a block, and what can be read off them. -/
namespace Diversity

/-- One step of a call path: the call statement and the block it enters. -/
structure CallSite where
  call : NodeId
  block : String
  deriving DecidableEq, Inhabited

abbrev CallPath := List CallSite

/-- A block together with the path that led there. -/
structure Visit where
  block : Block
  path : CallPath
  deriving Inhabited

/-- A variable together with the path to a block that mentions it. -/
structure Use where
  var : Variable
  path : CallPath
  deriving Inhabited

namespace Visit

/-- The visits below a block, depth first. A block that has been entered is not entered again. -/
def below (bs : BlockSet) (entered : List String) (v : Visit) : Except SynthesisError (List Visit) := do
  let visits ← v.block.calls.mapM fun (call, callee) =>
    if _hn : callee.name ∈ entered then .ok []
    else match _hr : bs.resolve callee with
      | .error e => .error e
      | .ok b => do
        let v : Visit := ⟨b, v.path ++ [⟨call, b.name⟩]⟩
        return v :: (← below bs (b.name :: entered) v)
  return visits.flatten
termination_by bs.unentered entered
decreasing_by
  have hf := BlockSet.find?_of_resolve _hr
  exact BlockSet.unentered_cons_lt (BlockSet.mem_of_find? hf) (BlockSet.name_of_find? hf ▸ _hn)

/-- The chunk variables that the block mentions, each once. -/
def uses (v : Visit) : List Use :=
  (distinctBy Variable.key (v.block.vars.filter (·.chunk.isSome))).map (⟨·, v.path⟩)

def mentions (v : Visit) (c : ChunkId) : Bool := v.block.vars.any (·.chunk == some c)

end Visit

namespace CallPath

/-- What two paths have in common from their start. -/
def common : CallPath → CallPath → CallPath
  | a :: as, b :: bs => if a = b then a :: common as bs else []
  | _, _ => []

/-- The longest path that all of the given paths start with. -/
def commonOfAll : List CallPath → CallPath
  | [] => []
  | p :: ps => ps.foldl common p

end CallPath

/-- All visits from a root block, which comes first. -/
structure Trace where
  root : String
  visits : List Visit
  deriving Inhabited

namespace Trace

/-- Follows every call below `root`, or none. -/
def ofBlock (bs : BlockSet) (root : Block) (recursive : Bool) : Except SynthesisError Trace := do
  let v : Visit := ⟨root, []⟩
  let below ← if recursive then v.below bs [root.name] else .ok []
  return ⟨root.name, v :: below⟩

/-- The names of the blocks reached, in the order of their discovery. -/
def blocks (t : Trace) : List String := distinct (t.visits.map (·.block.name))

def uses (t : Trace) : List Use := t.visits.flatMap (·.uses)

/-- The chunks mentioned, in the order of their discovery. -/
def chunks (t : Trace) : List ChunkId := distinct (t.uses.filterMap (·.var.chunk))

/-- The variables outside all chunks that are mentioned, in the order of their discovery. -/
def externs (t : Trace) : List Variable :=
  distinctBy (·.name) (t.visits.flatMap (·.block.vars.filter (·.chunk.isNone)))

/-- The paths to blocks that mention the chunk. -/
def paths (t : Trace) (c : ChunkId) : List CallPath := (t.visits.filter (·.mentions c)).map (·.path)

/-- The calls that every path to the chunk starts with. -/
def stem (t : Trace) (c : ChunkId) : CallPath := .commonOfAll (t.paths c)

/-- The deepest block that every path to the chunk goes through. -/
def home? (t : Trace) (c : ChunkId) : Option String :=
  if (t.paths c).isEmpty then none else some ((t.stem c).getLast?.elim t.root (·.block))

/-- The use lies below the block, and the block below the home of the variable's chunk. -/
def needsFrom (t : Trace) (block : String) (u : Use) : Bool :=
  u.var.chunk.any fun c => (u.path.drop (t.stem c).length).any (·.block == block)

/-- The variables that a block or one below it uses and that live strictly above it. -/
def needs (t : Trace) (block : String) : List Variable :=
  distinctBy Variable.key ((t.uses.filter (t.needsFrom block)).map (·.var))

end Trace

end Diversity
