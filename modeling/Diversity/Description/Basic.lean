/-! Descriptions as they are written: names and types are still text. -/
namespace Diversity.Description

/-- An expression of a description. -/
inductive Term where
  | var (name : String)
  | ref (target : Term)
  | deref (target : Term)
  | index (target position : Term)
  | call (target : Term) (args : List Term)
  | op (symbol : String) (operands : List Term)
  | value (literal : String)
  | cast (target : Term) (type : String)
  | sizeofExpr (target : Term)
  | sizeofType (type : String)
  deriving Inhabited

mutual

inductive Statement where
  | assign (target value : Term)
  | call (block : String)
  | choice (arms : List Arm) (otherwise : Option (List Statement))
  | loop (condition : Term) (body : List Statement)
  | expr (term : Term)
  | group (body : List Statement)

/-- A condition and what to do if it holds. -/
inductive Arm where
  | mk (condition : Term) (body : List Statement)

end

instance : Inhabited Statement := ⟨.group []⟩

instance : Inhabited Arm := ⟨.mk default []⟩

structure Extern where
  name : String
  type : String
  deriving Inhabited

structure Variable where
  name : String
  type : String
  initial : Option Term
  deriving Inhabited

structure Chunk where
  name : Option String
  isLocal : Bool
  isGlobal : Bool
  isStatic : Bool
  vars : List Variable
  deriving Inhabited

structure Block where
  name : String
  func : Bool
  inline : Bool
  nop : Bool
  statements : List Statement
  deriving Inhabited

end Diversity.Description

namespace Diversity

/-- A whole description. -/
structure Description where
  entry : String
  externs : List Description.Extern
  chunks : List Description.Chunk
  blocks : List Description.Block
  deriving Inhabited

end Diversity
