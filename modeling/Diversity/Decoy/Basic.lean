import Diversity.Graph
import Diversity.Names
import Diversity.Trace
/-! Decoys: code that is put in front of calls and has no effect on the rest of a program. -/
namespace Diversity

/-- The graphs that decoys are taken from. Their blocks are all marked as decoys. -/
structure DecoyPool where
  assets : List Graph
  deriving Inhabited

namespace DecoyPool

def mark (b : Block) : Block := { b with constraint.nop := true }

def ofGraphs (graphs : List Graph) : DecoyPool :=
  ⟨graphs.map fun g => { g with blocks := .of (g.blocks.toList.map mark) }⟩

def size (pool : DecoyPool) : Nat := pool.assets.length

end DecoyPool

namespace Graph

/-- Adds a block of the asset `asset`, unless it is there already. -/
def absorbBlock (asset : String) (g : Graph) (b : Block) : Except SynthesisError Graph :=
  match g.blocks.find? b.name with
  | some c => if c.id = b.id then .ok g else .error (.decoyCollision asset b.name)
  | none => do return { g with blocks := ← g.blocks.insert b }

def absorbChunk (g : Graph) (c : Chunk) : Graph :=
  if (g.chunk? c.id).isSome then g else { g with chunks := g.chunks ++ [c] }

def absorbExtern (g : Graph) (v : Variable) : Graph :=
  if g.externs.any (·.name == v.name) then g else { g with externs := g.externs ++ [⟨v, none⟩] }

/-- Adds everything that the root of an asset reaches. -/
def absorb (g asset : Graph) (root : Block) : Except SynthesisError Graph := do
  let t ← Trace.ofBlock asset.blocks root true
  let g ← t.blocks.foldlM (fun g name => do
    match asset.blocks.find? name with
    | some b => g.absorbBlock root.name b
    | none => throw (.unknownBlock name)) g
  let g := (t.chunks.filterMap asset.chunk?).foldl absorbChunk g
  return t.externs.foldl absorbExtern g

end Graph

/-- The state of an injection: the random source, names and identities for new blocks, the graph so
far, and the new blocks that are not in it yet. -/
structure Injection (σ : Type) where
  source : σ
  names : Names
  supply : Supply
  graph : Graph
  wrappers : List Block

namespace Injection

variable {σ : Type} [RandomSource σ]

abbrev Step (σ : Type) := StateT (Injection σ) (Except SynthesisError)

/-- A draw from the random source. -/
def drawn {α : Type} (m : StateM σ α) : Step σ α := modifyGet fun s =>
  let (a, source) := m s.source
  (a, { s with source })

/-- New identities. -/
def numbered {α : Type} (m : StateM Supply α) : Step σ α := modifyGet fun s =>
  let (a, supply) := m s.supply
  (a, { s with supply })

def freshName (stem : String) : Step σ String := do
  let (name, names) ← drawn ((← get).names.fresh stem)
  modify ({ · with names })
  return name

/-- A decoy block that ends in the call that it is put in front of. -/
def wrap (pool : DecoyPool) (id : NodeId) (callee : BlockRef) : Step σ (List Stmt) := do
  let asset := pool.assets.getD (← drawn (Index.draw64 pool.size)) default
  let root ← asset.root
  let graph ← (← get).graph.absorb asset root
  modify ({ · with graph })
  let decoy ← numbered (Stmt.refreshAll root.statements)
  let name ← freshName "nop"
  let block : Block := ⟨← numbered Supply.block, name, ⟨false, false, true⟩, decoy ++ [.call id callee]⟩
  modify fun s => { s with wrappers := s.wrappers ++ [block] }
  return [.call (← numbered Supply.node) block.ref]

/-- Wraps a call by chance. -/
def wrapByChance (pool : DecoyPool) (chance : Chance) (id : NodeId) (callee : BlockRef) :
    Step σ (Option (List Stmt)) := do
  if ← drawn chance.draw then return some (← wrap pool id callee) else return none

/-- Wraps the calls of a block by chance. -/
def wrapCalls (pool : DecoyPool) (chance : Chance) (b : Block) : Step σ Unit := do
  let statements ← Stmt.mapCallsOfAll (wrapByChance pool chance) b.statements
  let blocks ← (← get).graph.blocks.replace (b.withBody statements)
  modify fun s => { s with graph.blocks := blocks }

/-- Wraps calls in all blocks that are not decoys themselves. -/
def wrapAll (pool : DecoyPool) (chance : Chance) (g : Graph) : Step σ Unit := do
  (g.blocks.toList.filter (!·.constraint.nop)).forM (wrapCalls pool chance)
  let s ← get
  let blocks ← s.graph.blocks.insertAll s.wrappers
  set { s with graph.blocks := blocks }

end Injection

/-- The graph with decoys in front of its calls. Blocks keep their names and identities. -/
def Graph.withDecoys {σ : Type} [RandomSource σ] (g : Graph) (pool : DecoyPool) (chance : Chance)
    (names : Names) (supply : Supply) (source : σ) : Except SynthesisError (Injection σ) :=
  if pool.assets.isEmpty ∨ chance = .never then .ok ⟨source, names, supply, g, []⟩
  else do
    let ((), s) ← Injection.wrapAll pool chance g ⟨source, names, supply, g, []⟩
    return s

end Diversity
