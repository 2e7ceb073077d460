import Diversity.Random.Draw
import Diversity.Text.Quoted
/-! Names for new blocks. -/
namespace Diversity

/-- The names that are taken. -/
structure Names where
  taken : List String
  deriving Inhabited

namespace Names

def empty : Names := ⟨[]⟩

def isTaken (names : Names) (name : String) : Bool := names.taken.contains name

def reserve (names : Names) (name : String) : Names :=
  if names.isTaken name then names else ⟨name :: names.taken⟩

def reserveAll (names : Names) (all : List String) : Names := all.foldl reserve names

/-- A hexadecimal number with at least six digits. -/
def sixDigits (n : Nat) : String :=
  let digits := Text.hex n
  "".pushn '0' (6 - digits.length) ++ digits

def candidate (stem : String) (n : Nat) : String := stem ++ "_" ++ sixDigits n

/-- The first candidate, counting up, that is not taken. -/
def unused (names : Names) (stem : String) : String :=
  (((List.range (names.taken.length + 1)).map (candidate stem)).find? (!names.isTaken ·)).getD stem

/-- A new name, which is taken from then on. -/
def fresh {σ : Type} [RandomSource σ] (stem : String) (names : Names) : StateM σ (String × Names) := do
  let drawn ← firstAccepted (candidate stem <$> Index.draw32 0x1000000) (!names.isTaken ·) maxAttempts
  let name := drawn.getD (names.unused stem)
  return (name, names.reserve name)

end Names

end Diversity
