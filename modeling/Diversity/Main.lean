import Diversity.CommandLine.Run
import Diversity.Host.Filter
/-! The program. -/
namespace Diversity

/-- The fault that an error of the system tells of. -/
def FileFault.ofError : IO.Error → FileFault
  | .noFileOrDirectory .. => .missing
  | .alreadyExists .. => .exists
  | .inappropriateType .. => .isDirectory
  | e => .other (toString e)

/-- What an action gives, or why the system refused it. -/
def orFault {α : Type} (act : IO α) : IO (Except FileFault α) := do
  try return .ok (← act)
  catch e => return .error (FileFault.ofError e)

/-- The machine itself. It starts no programs: its filters are those of `Filter`. -/
instance : Host IO where
  readFile path := orFault (IO.FS.readFile path)
  isFile path := do
    try
      let data ← IO.FS.Handle.mk path .read
      let _ ← data.read 1
      return true
    catch _ => return false
  makeDirectory path := orFault (IO.FS.createDirAll path)
  writeFile path text := orFault (IO.FS.writeFile path text)
  print text := do
    (← IO.getStdout).putStr text
  warn text := do
    (← IO.getStderr).putStr text
  filter program arguments text := return Filter.apply program arguments text
  randomSeed := do
    let bytes ← IO.getRandomBytes 8
    return bytes.toList.foldl (fun n b => 256 * n + b.toUInt64) 0

end Diversity

def main (arguments : List String) : IO UInt32 := do
  let status ← Diversity.CommandLine.run arguments
  return status.code
