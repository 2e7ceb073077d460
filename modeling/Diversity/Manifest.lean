import Diversity.Decimal.Printer
import Diversity.Host.Basic
import Diversity.Path
import Diversity.Toml.Reader
/-! Manifests: the settings that go with a description. -/
namespace Diversity

structure Manifest where
  /-- The seed of the first variant. -/
  seed : Option UInt64 := none
  /-- How many variants are asked for. -/
  count : Nat := 1
  /-- Whether there are to be decoys. -/
  decoys : Bool := true
  /-- The chance of a decoy in front of a call. -/
  probability : Float := 0.25
  /-- Where the variants are written. -/
  directory : Option String := none
  /-- The command that each variant is sent through. -/
  formatter : Option String := none
  deriving BEq, Inhabited

inductive ManifestError where
  | unreadable (path : String) (fault : FileFault)
  | malformed (path : String)
  | improbable (path : String) (probability : Float)
  deriving Inhabited

def ManifestError.message : ManifestError → String
  | .unreadable path fault => "failed to read " ++ path ++ ": " ++ fault.message
  | .malformed path => "failed to parse " ++ path ++ ": not a manifest"
  | .improbable path p =>
    "invalid setting in " ++ path ++ ": nops.probability must be within 0..=1, got " ++
      Decimal.render .plain p

/-- A chance lies between zero and one; NaN does not. -/
def isProbability (p : Float) : Bool := 0.0 ≤ p && p ≤ 1.0

namespace Manifest

/-- The name that a manifest has next to a description. -/
def standardName : String := "vulnsynth.toml"

/-- The fields of a section in the given order: a table with no other keys, or an array of values. -/
def fields? (names : List String) : Toml.Value → Option (List (Option Toml.Value))
  | .table _ entries =>
    if entries.all fun e => names.contains e.1 then some (names.map (entries.lookup ·)) else none
  | .array items => some ((List.range names.length).map (items[·]?))
  | _ => none

/-- A field's value, or `fallback` if the field is absent. -/
def fieldOr {α : Type} (fallback : α) (read : Toml.Value → Option α) : Option Toml.Value → Option α
  | none => some fallback
  | some v => read v

def natural? : Toml.Value → Option Nat
  | .integer n => if 0 ≤ n then some n.toNat else none
  | _ => none

def boolean? : Toml.Value → Option Bool
  | .boolean b => some b
  | _ => none

def text? : Toml.Value → Option String
  | .string s => some s
  | _ => none

/-- The floating-point number nearest to a whole number. -/
def nearestFloat (n : Int) : Float := (Decimal.mk (n < 0) n.natAbs 0).toFloat

def float? : Toml.Value → Option Float
  | .float x => some x
  | .integer n => some (nearestFloat n)
  | _ => none

/-- Takes the values of one section over into a manifest. -/
def withSection (m : Manifest) (name : String) (v : Toml.Value) : Option Manifest :=
  match name with
  | "synth" => do
    match ← fields? ["seed", "count"] v with
    | [seed, count] =>
      let seed ← fieldOr none (fun v => (natural? v).map fun n => some (UInt64.ofNat n)) seed
      return { m with seed, count := ← fieldOr 1 natural? count }
    | _ => none
  | "nops" => do
    match ← fields? ["enabled", "probability"] v with
    | [enabled, probability] =>
      return { m with
        decoys := ← fieldOr true boolean? enabled
        probability := ← fieldOr 0.25 float? probability }
    | _ => none
  | "output" => do
    match ← fields? ["directory", "formatter"] v with
    | [directory, formatter] =>
      return { m with
        directory := ← fieldOr none (fun v => (text? v).map some) directory
        formatter := ← fieldOr none (fun v => (text? v).map some) formatter }
    | _ => none
  | _ => none

def ofEntries? (entries : Toml.Entries) : Option Manifest :=
  entries.foldlM (fun m e => m.withSection e.1 e.2) {}

/-- Reads a manifest. A relative directory is one next to the manifest itself. -/
def ofText (text path : String) : Except ManifestError Manifest :=
  match (Toml.read? text).bind ofEntries? with
  | none => .error (.malformed path)
  | some m =>
    if isProbability m.probability then
      .ok { m with directory := m.directory.map (Path.join ((Path.parent? path).getD ".")) }
    else .error (.improbable path m.probability)

variable {m : Type → Type} [Monad m] [Host m]

def load (path : String) : m (Except ManifestError Manifest) := do
  match ← Host.readFile path with
  | .error fault => return .error (.unreadable path fault)
  | .ok text => return ofText text path

/-- The path of the manifest next to a description, if there is one. -/
def find? (input : String) : m (Option String) := do
  match Path.parent? input with
  | none => return none
  | some directory =>
    let path := Path.join (if directory == "" then "." else directory) standardName
    return if ← Host.isFile path then some path else none

end Manifest

end Diversity
