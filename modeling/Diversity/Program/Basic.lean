import Diversity.Block
import Diversity.Chunk
/-! Programs: what a graph becomes once everything is placed. -/
namespace Diversity

structure Global where
  declaration : Declaration
  isStatic : Bool
  deriving Inhabited

structure Function where
  name : String
  result : CType
  params : List Declaration
  statics : List Declaration
  locals : List Declaration
  body : List Stmt
  deriving Inhabited

namespace Function

def isMain (f : Function) : Bool := f.name == "main"

/-- The type of the function; a parameter without a type counts as `void`. -/
def type (f : Function) : CType := .function f.result (f.params.map (·.var.type.getD .void)) false

end Function

structure Program where
  externs : List Declaration
  globals : List Global
  functions : List Function
  deriving Inhabited

def Program.function? (p : Program) (name : String) : Option Function :=
  p.functions.find? (·.name == name)

end Diversity
