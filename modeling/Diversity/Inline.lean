import Diversity.Placement
/-! Blocks spliced into their callers. -/
namespace Diversity

namespace Placement

/-- The statements with every call of a block that is not a function replaced by the statements of that
block, under new identities. `entered` are the blocks that are being spliced in. -/
def expand (p : Placement) (bs : BlockSet) (entered : List String) (body : List Stmt) :
    StateT Supply (Except SynthesisError) (List Stmt) :=
  Stmt.mapCallsOfAll (fun _ callee =>
    if p.isFunc callee.name then return none
    else if !p.isInline callee.name then throw (.uninterpretedBlock callee.name)
    else if _hn : callee.name ∈ entered then throw (.recursiveInline callee.name)
    else match _hr : bs.resolve callee with
      | .error e => throw e
      | .ok b => do
        let copy ← modifyGet (Stmt.refreshAll b.statements)
        return some (← expand p bs (b.name :: entered) copy)) body
termination_by bs.unentered entered
decreasing_by
  have hf := BlockSet.find?_of_resolve _hr
  exact BlockSet.unentered_cons_lt (BlockSet.mem_of_find? hf) (BlockSet.name_of_find? hf ▸ _hn)

/-- The functions, with everything else spliced in. -/
def inline (p : Placement) (bs : BlockSet) : StateT Supply (Except SynthesisError) (List Block) :=
  (bs.toList.filter (p.isFunc ·.name)).mapM fun b => do
    return b.withBody (← p.expand bs [] b.statements)

end Placement

namespace BlockSet

/-- Points a call at the block that has its name. -/
def redirect (bs : BlockSet) (id : NodeId) (callee : BlockRef) :
    Except SynthesisError (Option (List Stmt)) :=
  match bs.find? callee.name with
  | some b => .ok (some [.call id b.ref])
  | none => .error (.uninterpretedBlock callee.name)

/-- The blocks as a set in which every call means the block that has its name. -/
def repaired (blocks : List Block) : Except SynthesisError BlockSet := do
  let bs ← ofList blocks
  let blocks ← blocks.mapM fun b => do
    return b.withBody (← Stmt.mapCallsOfAll bs.redirect b.statements)
  ofList blocks

end BlockSet

end Diversity
