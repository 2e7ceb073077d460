import Diversity.CommandLine.Arguments
import Diversity.CommandLine.Help
import Diversity.Decoy.Shipped
import Diversity.Report
import Diversity.Synthesis
import Diversity.Text.Blank
/-! What the command line does. -/
namespace Diversity.CommandLine

/-- What a synthesis does, once the arguments and the manifest are known. Arguments come first. -/
structure Settings where
  seed : Option UInt64
  count : Nat
  decoys : Option Chance
  output : Option String
  formatter : Option String

def Settings.ofArguments (a : Arguments) (m : Manifest) : Settings :=
  let probability := a.probability.getD m.probability
  { seed := a.seed <|> m.seed
    count := a.count.getD m.count
    decoys := if m.decoys && !a.withoutDecoys then some (Chance.ofFloat probability) else none
    output := a.output <|> m.directory
    formatter := a.formatter <|> m.formatter }

variable {m : Type → Type} [Monad m] [Host m]

/-- Steps that can end with a report. -/
abbrev Task (m : Type → Type) := ExceptT Report m

/-- A question to the system. -/
def ask {α : Type} (x : m α) : Task m α := ExceptT.lift x

/-- The outcome of a step whose failures are reported by `report`. -/
def orReport {ε α : Type} (report : ε → Report) : Except ε α → Task m α
  | .ok a => return a
  | .error e => throw (report e)

def manifestFor (input : String) (a : Arguments) : Task m Manifest := do
  let path ← match a.config with
    | some path => pure (some path)
    | none => ask (Manifest.find? input)
  match path with
  | none => return {}
  | some path => orReport Report.ofManifest (← ask (Manifest.load path))

/-- Sends a text through a formatter. -/
def formatted (command text : String) : Task m String :=
  match Text.words command with
  | [] => throw ["formatter command is empty"]
  | program :: arguments => do
    match ← ask (Host.filter program arguments text) with
    | .ok text => return text
    | .error (.unknown reason) => throw ["failed to run formatter `" ++ program ++ "`: " ++ reason]
    | .error (.failed message) => throw ["formatter `" ++ program ++ "` failed: " ++ message]

/-- Writes the variants into a directory, numbered from one. -/
def writeAll (directory input : String) (texts : List String) : Task m Unit := do
  orReport (fun fault => Report.ofFile directory fault.message) (← ask (Host.makeDirectory directory))
  let stem := (Path.fileStem? input).getD "variant"
  for (text, index) in texts.zipIdx do
    let path := Path.join directory (stem ++ "_" ++ toString (index + 1) ++ ".c")
    orReport (fun fault => Report.ofFile path fault.message) (← ask (Host.writeFile path text))

def synthesize (input : String) (a : Arguments) : Task m Unit := do
  let settings := Settings.ofArguments a (← manifestFor input a)
  let source ← orReport (fun fault => Report.ofFile input fault.message) (← ask (Host.readFile input))
  let (pool, supply) ← orReport (Report.ofCompile input) (DecoyPool.shipped .first)
  let (graph, supply) ← orReport (Report.ofCompile input) (Graph.ofText source supply)
  let seed ← match settings.seed with
    | some seed => pure seed
    | none => ask Host.randomSeed
  let synthesis : Synthesis := ⟨pool, settings.decoys, supply⟩
  let variants ← orReport (Report.ofSynthesis input) (synthesis.variants graph seed (max settings.count 1))
  let texts ← match settings.formatter with
    | none => pure (variants.map (·.source))
    | some command => variants.mapM fun v => formatted command v.source
  match settings.output, texts with
  | none, [text] => ask (Host.print text)
  | none, texts => writeAll "." input texts
  | some directory, texts => writeAll directory input texts

/-- The status that a run ends with. -/
inductive Status where
  | success
  | failure
  | misuse
  deriving DecidableEq, Inhabited

def Status.code : Status → UInt32
  | .success => 0
  | .failure => 1
  | .misuse => 2

def run (arguments : List String) : m Status := do
  match Request.ofArguments false arguments with
  | .misuse =>
    Host.warn (usage ++ "\n")
    return .misuse
  | .version =>
    Host.print "vulnsynth 0.1.0\n"
    return .success
  | .help =>
    Host.print help
    return .success
  | .synthesisHelp =>
    Host.print synthesisHelp
    return .success
  | .helpHelp =>
    Host.print helpHelp
    return .success
  | .synthesize input a =>
    match ← (synthesize input a).run with
    | .ok () => return .success
    | .error report =>
      Host.warn ("Error: " ++ "\n  ".intercalate report ++ "\n")
      return .failure

end Diversity.CommandLine
