import Diversity.Block
import Diversity.Chunk
/-! The graph of blocks and chunks that a description stands for. -/
namespace Diversity

structure Graph where
  entry : String
  chunks : List Chunk
  externs : List Declaration
  blocks : BlockSet
  deriving Inhabited

namespace Graph

/-- The block where the program starts. -/
def root (g : Graph) : Except SynthesisError Block :=
  match g.blocks.find? g.entry with
  | some b => .ok b
  | none => .error (.unknownBlock g.entry)

def chunk? (g : Graph) (id : ChunkId) : Option Chunk := g.chunks.find? (·.id = id)

/-- Every name that a new block must not have. -/
def names (g : Graph) : List String :=
  g.blocks.names ++ g.chunks.flatMap (·.vars.map (·.name)) ++ g.externs.map (·.name)

end Graph

end Diversity
