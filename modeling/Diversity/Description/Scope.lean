import Diversity.Builtin
import Diversity.Description.Error
/-! The names that expressions of a description can use. -/
namespace Diversity.Description

/-- The variables in scope, besides those of the library. -/
structure Scope where
  vars : List Diversity.Variable
  deriving Inhabited

namespace Scope

def empty : Scope := ⟨[]⟩

def find? (s : Scope) (name : String) : Option Diversity.Variable :=
  s.vars.find? (·.name == name)

/-- Adds a variable, whose name must be new. -/
def declare (part : Part) (s : Scope) (v : Diversity.Variable) : Except CompileError Scope :=
  if (s.find? v.name).isSome then .error (.duplicate part v.name)
  else .ok ⟨s.vars ++ [v]⟩

/-- Adds the variables of a list in order. -/
def declareAll (part : Part) (s : Scope) (vs : List Diversity.Variable) : Except CompileError Scope :=
  vs.foldlM (declare part) s

/-- The variable that a name stands for; the library's come last. -/
def resolve (part : Part) (s : Scope) (name : String) : Except CompileError Diversity.Variable :=
  match s.find? name with
  | some v => .ok v
  | none =>
    match Builtin.type? name with
    | some type => .ok (.free name (some type))
    | none => .error (.unknownVariable part name)

end Scope

end Diversity.Description
