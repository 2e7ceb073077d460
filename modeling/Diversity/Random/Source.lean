/-! Sources of random words. -/
namespace Diversity

/-- A state from which random words can be drawn. -/
class RandomSource (σ : Type) where
  next64 : StateM σ UInt64
  next32 : StateM σ UInt32

/-- Words from a list; after its end each word is computed from the one before. -/
structure Words where
  listed : List UInt64
  last : UInt64
  deriving Inhabited

namespace Words

def ofList (listed : List UInt64) : Words := ⟨listed, 0⟩

def next : StateM Words UInt64 := fun s =>
  match s.listed with
  | w :: ws => (w, ⟨ws, s.last⟩)
  | [] =>
    let w := s.last * 6364136223846793005 + 1442695040888963407
    (w, ⟨[], w⟩)

/-- A short word is the high half of a long one. -/
instance : RandomSource Words where
  next64 := next
  next32 := do return ((← next) >>> 32).toUInt32

end Words

end Diversity
