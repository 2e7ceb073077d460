/-! Identities of nodes, blocks and chunks, and the supply that they are drawn from. -/
namespace Diversity

structure NodeId where
  index : Nat
  deriving DecidableEq, Inhabited

/-- The identity of every node that has not been numbered. -/
def NodeId.unnumbered : NodeId := ⟨0⟩

structure BlockId where
  index : Nat
  deriving DecidableEq, Inhabited

structure ChunkId where
  index : Nat
  deriving DecidableEq, Inhabited

/-- The next index that no node, block or chunk has. -/
structure Supply where
  next : Nat
  deriving DecidableEq, Inhabited

namespace Supply

/-- Numbered identities start above `NodeId.unnumbered`. -/
def first : Supply := ⟨1⟩

def node : StateM Supply NodeId := fun s => (⟨s.next⟩, ⟨s.next + 1⟩)

def block : StateM Supply BlockId := fun s => (⟨s.next⟩, ⟨s.next + 1⟩)

def chunk : StateM Supply ChunkId := fun s => (⟨s.next⟩, ⟨s.next + 1⟩)

end Supply

end Diversity
