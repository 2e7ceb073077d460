/-! What the program asks of the system that it runs on. -/
namespace Diversity

/-- Why the system refuses to touch a file. -/
inductive FileFault where
  | missing
  | exists
  | notDirectory
  | isDirectory
  /-- Anything else, in the system's words. -/
  | other (message : String)
  deriving DecidableEq, Inhabited

def FileFault.message : FileFault → String
  | .missing => "No such file or directory (os error 2)"
  | .exists => "File exists (os error 17)"
  | .notDirectory => "Not a directory (os error 20)"
  | .isDirectory => "Is a directory (os error 21)"
  | .other message => message

/-- Why a text did not come through a filter. -/
inductive FilterFault where
  /-- There is no such program. -/
  | unknown (reason : String)
  /-- The program gave up, with a message. -/
  | failed (message : String)
  deriving DecidableEq, Inhabited

/-- A system: files, a place to print to, filters, and a source of seeds. -/
class Host (m : Type → Type) where
  readFile : (path : String) → m (Except FileFault String)
  isFile : (path : String) → m Bool
  /-- Makes a directory and those that it is in, as far as they are missing. -/
  makeDirectory : (path : String) → m (Except FileFault Unit)
  writeFile : (path text : String) → m (Except FileFault Unit)
  print : (text : String) → m Unit
  warn : (text : String) → m Unit
  /-- Sends a text through a program and gives what it prints. -/
  filter : (program : String) → (arguments : List String) → (text : String) → m (Except FilterFault String)
  randomSeed : m UInt64

end Diversity
