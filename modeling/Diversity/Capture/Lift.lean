import Diversity.Capture.Join
import Diversity.Capture.Usage
import Diversity.Chunk
import Diversity.Expr.Substitution
/-! Variables turned into parameters. -/
namespace Diversity

/-- A variable as a parameter of a block. -/
structure Lifted where
  /-- What callers pass. -/
  maximal : Capture
  param : Declaration
  /-- The block's own usages, through the parameter. -/
  substitution : Substitution
  deriving Inhabited

namespace Capture

/-- The join of all usages of a variable in and below a block. -/
def joinUsages (name block : String) : List Usage → Except SynthesisError Capture
  | [] => .error (.missingCapture name block)
  | u :: us => us.foldlM (fun c u => c.maximal u.capture) u.capture

end Capture

/-- A usage through an expression for the variable. -/
def Usage.replacement (inverse : Capture) (u : Usage) : NodeId × Expr :=
  (u.origin, (u.capture.replace inverse).simplify.toExpr)

/-- Makes a variable a parameter of a block. -/
def Block.lift (bs : BlockSet) (b : Block) (v : Variable) : Except SynthesisError Lifted := do
  let maximal ← Capture.joinUsages v.name b.name (← b.usagesBelow bs v.key [b.name])
  let param : Declaration := .free v.name (some (← maximal.paramType))
  let inverse := maximal.invert (.var .unnumbered param.var)
  return ⟨maximal, param, (b.usages v.key).map (·.replacement inverse)⟩

end Diversity
