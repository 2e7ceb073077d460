import Diversity.Error
import Diversity.Expr.Basic
import Diversity.NameIndex
/-! Chunks: groups of variables that are placed together. -/
namespace Diversity

/-- A variable with the value that it starts with. -/
structure Declaration where
  var : Variable
  initial : Option Expr
  deriving Inhabited

namespace Declaration

def name (d : Declaration) : String := d.var.name

/-- The name, if descriptions may use it. -/
def visibleName? (d : Declaration) : Option String := if d.var.isHidden then none else some d.name

/-- A declaration of a variable that belongs to no chunk and has no initial value. -/
def free (name : String) (type : Option CType) : Declaration := ⟨.free name type, none⟩

end Declaration

namespace Chunk

inductive Reach where
  | local
  | global
  deriving DecidableEq, Inhabited

/-- What a description asks of a chunk's placement. No reach leaves the choice open. -/
structure Constraint where
  reach : Option Reach
  isStatic : Bool
  deriving DecidableEq, Inhabited

namespace Constraint

def free : Constraint := ⟨none, false⟩

def isLocal (c : Constraint) : Bool := c.reach == some .local

def isGlobal (c : Constraint) : Bool := c.reach == some .global

def ofFlags (isLocal isGlobal isStatic : Bool) : Except SynthesisError Constraint :=
  match isLocal, isGlobal with
  | true, true => .error .constraintConflict
  | true, false => .ok ⟨some .local, isStatic⟩
  | false, true => .ok ⟨some .global, isStatic⟩
  | false, false => .ok ⟨none, isStatic⟩

/-- Both demands at once. -/
def merge (a b : Constraint) : Except SynthesisError Constraint :=
  ofFlags (a.isLocal || b.isLocal) (a.isGlobal || b.isGlobal) (a.isStatic || b.isStatic)

end Constraint

end Chunk

/-- A group of variables; each of them knows the chunk's identity. Those that are not hidden stand in a table. -/
structure Chunk where
  id : ChunkId
  name : Option String
  constraint : Chunk.Constraint
  vars : List Declaration
  table : NameIndex
  tabled : table = .of (vars.map (·.visibleName?))

namespace Chunk

/-- The chunk that has the given variables. -/
def of (id : ChunkId) (name : Option String) (constraint : Constraint) (vars : List Declaration) : Chunk :=
  ⟨id, name, constraint, vars, _, rfl⟩

instance : Inhabited Chunk := ⟨.of default none default []⟩

/-- The chunk that owns the given variables. -/
def make (id : ChunkId) (name : Option String) (constraint : Constraint)
    (vars : List Declaration) : Chunk :=
  .of id name constraint (vars.map fun d => { d with var.chunk := some id })

def label (c : Chunk) : String := c.name.getD ("chunk#" ++ toString c.id.index)

/-- The variable that a description names; of several with one name the last. -/
def lookup (c : Chunk) (name : String) : Option Declaration := c.table.lookup c.vars name

theorem of_lookup {c : Chunk} {name : String} {d : Declaration} (h : c.lookup name = some d) :
    d ∈ c.vars ∧ d.visibleName? = some name := by
  rw [lookup, c.tabled] at h
  exact NameIndex.of_lookup h

theorem lookup_eq_none {c : Chunk} {name : String} :
    c.lookup name = none ↔ some name ∉ c.vars.map (·.visibleName?) := by
  rw [lookup, c.tabled]
  exact NameIndex.lookup_eq_none

/-- All variables under the first chunk's identity. -/
def merge (a b : Chunk) : Except SynthesisError Chunk := do
  let constraint ← a.constraint.merge b.constraint
  return .make a.id (a.name <|> b.name) constraint (a.vars ++ b.vars)

end Chunk

end Diversity
