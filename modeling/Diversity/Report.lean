import Diversity.Description.Error
import Diversity.Manifest
import Diversity.Text.Lines
/-! How failures are told: a place in a text, or a chain of messages from the outermost on. -/
namespace Diversity

/-- A remark on some bytes of a text. -/
structure Label where
  offset : Nat
  length : Nat
  text : String
  deriving DecidableEq, Inhabited

/-- A message about a text, with the places that it is about. -/
structure Diagnostic where
  message : String
  code : String
  help : String
  labels : List Label
  deriving DecidableEq, Inhabited

/-- What is wrong with a description at a line and column. -/
def Diagnostic.ofDescription (source message : String) (line column : Nat) : Diagnostic :=
  let offset := Text.offset source line column
  { message
    code := "vulnsynth::document"
    help := "the input must be a vulnsynth JSON program description"
    labels := [⟨offset, if offset < source.utf8ByteSize then 1 else 0, "here"⟩] }

/-- Messages, each but the last caused by the next. -/
abbrev Report := List String

namespace Report

def ofFile (path message : String) : Report := ["failed to access " ++ path ++ ": " ++ message]

def ofManifest : ManifestError → Report
  | .unreadable path fault => [ManifestError.message (.unreadable path fault), fault.message]
  | e => [e.message]

def ofSynthesis (path : String) (e : SynthesisError) : Report :=
  ["failed to synthesize " ++ path, e.message]

/-- A description that is not well formed is reported by its fault alone. -/
def ofCompile (path : String) : CompileError → Report
  | .malformed fault => [fault.message]
  | e => ["failed to compile " ++ path, e.message] ++ (e.cause?.map (·.message)).toList

end Report

end Diversity
