import Diversity.Graph
import Diversity.Random.Draw
/-! Where blocks and chunks go: blocks become functions or are spliced into their callers, chunks become
local or global. -/
namespace Diversity

namespace Block

/-- Goes through the calls of a block. New callees are pushed on `pending`; `none` if `goal` is called. -/
def pushCallees (bs : BlockSet) (goal : String) :
    List BlockRef → List String → List Block → Except SynthesisError (Option (List String × List Block))
  | [], seen, pending => .ok (some (seen, pending))
  | callee :: rest, seen, pending =>
    if callee.name = goal then .ok none
    else if callee.name ∈ seen then pushCallees bs goal rest seen pending
    else do
      let b ← bs.resolve callee
      pushCallees bs goal rest (callee.name :: seen) (b :: pending)

/-- Every push uses up a block that had not been seen. -/
theorem unentered_pushCallees {bs : BlockSet} {goal : String} {calls : List BlockRef}
    {seen seen' : List String} {pending pending' : List Block}
    (h : pushCallees bs goal calls seen pending = .ok (some (seen', pending'))) :
    bs.unentered seen' + pending'.length ≤ bs.unentered seen + pending.length := by
  induction calls generalizing seen pending with
  | nil =>
    cases h
    exact Nat.le_refl _
  | cons callee rest ih =>
    unfold pushCallees at h
    split at h
    · cases h
    · split at h
      · exact ih h
      · next hn =>
        cases hr : bs.resolve callee with
        | error e => rw [hr] at h; cases h
        | ok b =>
          rw [hr] at h
          have hf := BlockSet.find?_of_resolve hr
          have hb := BlockSet.name_of_find? hf
          have hlt := BlockSet.unentered_cons_lt (BlockSet.mem_of_find? hf) (hb ▸ hn)
          have := ih h
          rw [hb] at hlt
          simp only [List.length_cons] at this
          omega

/-- Whether `goal` is called from a pending block or below one. -/
def callsBelow (bs : BlockSet) (goal : String) (seen : List String) :
    List Block → Except SynthesisError Bool
  | [] => .ok false
  | b :: pending =>
    match _h : pushCallees bs goal (b.calls.map (·.2)) seen pending with
    | .error e => .error e
    | .ok none => .ok true
    | .ok (some (seen, pending)) => callsBelow bs goal seen pending
termination_by pending => bs.unentered seen + pending.length
decreasing_by
  have := unentered_pushCallees _h
  simp only [List.length_cons]
  omega

/-- A chain of calls leads from the block to itself. -/
def reachesItself (bs : BlockSet) (b : Block) : Except SynthesisError Bool :=
  callsBelow bs b.name [] [b]

end Block

/-- Which blocks are functions, which are spliced in, and which chunks are local. -/
structure Placement where
  funcs : List String
  inlines : List String
  locals : List ChunkId
  deriving Inhabited

namespace Placement

def isFunc (p : Placement) (block : String) : Bool := p.funcs.contains block

def isInline (p : Placement) (block : String) : Bool := p.inlines.contains block

def isLocal (p : Placement) (chunk : ChunkId) : Bool := p.locals.contains chunk

/-- A block of which nothing is asked and that does not call itself is a function or not by chance. -/
def drawFunc {σ : Type} [RandomSource σ] (g : Graph) (b : Block) :
    StateT σ (Except SynthesisError) Bool := do
  if b.name = g.entry ∨ b.constraint.func then return true
  else if b.constraint.inline then return false
  else if ← b.reachesItself g.blocks then return true
  else modifyGet (coin : StateM σ Bool)

/-- A chunk of which nothing is asked is local or not by chance. -/
def drawLocal {σ : Type} [RandomSource σ] (c : Chunk) : StateM σ Bool :=
  match c.constraint.reach with
  | some .local => return true
  | some .global => return false
  | none => coin

/-- A placement of everything in the graph. -/
def draw {σ : Type} [RandomSource σ] (g : Graph) : StateT σ (Except SynthesisError) Placement := do
  let _ ← g.root
  let funcs ← g.blocks.toList.filterM (drawFunc g)
  let locals ← g.chunks.filterM fun c => modifyGet (drawLocal c : StateM σ Bool)
  let names := funcs.map (·.name)
  return ⟨names, g.blocks.names.filter (!names.contains ·), locals.map (·.id)⟩

end Placement

end Diversity
