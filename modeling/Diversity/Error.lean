import Diversity.CType.Basic
/-! The causes for which a synthesis stops. -/
namespace Diversity

/-- Why no parameter type can be derived from a capture. -/
inductive ParameterFault where
  | noVariable
  | noType
  | notDereferenceable (type : CType)
  deriving Inhabited

def ParameterFault.message : ParameterFault → String
  | .noVariable => "capture does not end in a variable"
  | .noType => "variable has no declared type"
  | .notDereferenceable type => "`" ++ type.text ++ "` cannot be dereferenced"

inductive SynthesisError where
  | constraintConflict
  | duplicateBlock (name : String)
  | unknownBlock (name : String)
  | divergentCall (name : String)
  | uninterpretedBlock (name : String)
  | recursiveInline (name : String)
  | incompatibleCapture (left right name : String)
  | missingCapture (name block : String)
  | unresolvedArgument (block name : String)
  | parameterType (name : String) (fault : ParameterFault)
  /-- A block of the decoy asset has the name of a block that is there already. -/
  | decoyCollision (asset block : String)
  deriving Inhabited

namespace SynthesisError

def message : SynthesisError → String
  | .constraintConflict => "chunk constraint cannot be both local and global"
  | .duplicateBlock name => "duplicate block `" ++ name ++ "`"
  | .unknownBlock name => "call to unknown block `" ++ name ++ "`"
  | .divergentCall name => "call to `" ++ name ++ "` points at a stale block instance"
  | .uninterpretedBlock name => "block `" ++ name ++ "` is neither a function nor inlined"
  | .recursiveInline name => "inline block `" ++ name ++ "` expands into itself"
  | .incompatibleCapture left right v =>
    "cannot join captures `" ++ left ++ "` and `" ++ right ++ "` of `" ++ v ++ "`"
  | .missingCapture v block => "no usage of `" ++ v ++ "` found below `" ++ block ++ "`"
  | .unresolvedArgument block v =>
    "`" ++ block ++ "` cannot pass `" ++ v ++ "`: no capture recorded and not declared there"
  | .parameterType v fault => "cannot derive a parameter type for `" ++ v ++ "`: " ++ fault.message
  | .decoyCollision asset block =>
    "decoy asset `" ++ asset ++ "` is invalid: block `" ++ block ++ "` collides with an existing block"

end SynthesisError

end Diversity
