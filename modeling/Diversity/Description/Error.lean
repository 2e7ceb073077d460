import Diversity.CType.Parser
import Diversity.Description.Fault
import Diversity.Typing
/-! Why a description stands for no graph. -/
namespace Diversity

/-- The part of a description that an error is about. -/
inductive Description.Part where
  | external (name : String)
  | chunk (label : String)
  | anonymousChunk
  | blockDeclarations
  | block (name : String)
  | entry
  deriving DecidableEq, Inhabited

def Description.Part.text : Description.Part → String
  | .external name => "extern `" ++ name ++ "`"
  | .chunk label => "chunk `" ++ label ++ "`"
  | .anonymousChunk => "anonymous chunk"
  | .blockDeclarations => "block declarations"
  | .block name => "block `" ++ name ++ "`"
  | .entry => "document entry"

inductive CompileError where
  | malformed (fault : Description.Fault)
  | type (part : Description.Part) (text : String) (error : CType.TextError)
  | unknownVariable (part : Description.Part) (name : String)
  | unknownBlock (part : Description.Part) (name : String)
  | duplicate (part : Description.Part) (name : String)
  | mismatch (part : Description.Part) (fault : TypeFault)
  | graph (part : Description.Part) (cause : SynthesisError)
  deriving Inhabited

namespace CompileError

def message : CompileError → String
  | .malformed fault => "malformed document: " ++ fault.message
  | .type part text error => "invalid type `" ++ text ++ "` in " ++ part.text ++ ": " ++ error.message
  | .unknownVariable part name => "unknown variable `" ++ name ++ "` in " ++ part.text
  | .unknownBlock part name => "call to undeclared block `" ++ name ++ "` in " ++ part.text
  | .duplicate part name => "`" ++ name ++ "` is declared more than once in " ++ part.text
  | .mismatch part fault => "type error in " ++ part.text ++ ": " ++ fault.message
  | .graph part cause => "invalid graph in " ++ part.text ++ ": " ++ cause.message

/-- The error that caused this one. -/
def cause? : CompileError → Option SynthesisError
  | .graph _ cause => some cause
  | _ => none

end CompileError

end Diversity
