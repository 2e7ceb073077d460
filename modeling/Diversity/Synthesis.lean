import Diversity.Decoy.Basic
import Diversity.Program.Lowering
import Diversity.Program.Render
import Diversity.Random.ChaCha
/-! From a graph to C text. -/
namespace Diversity

/-- What a synthesis may do. -/
structure Synthesis where
  pool : DecoyPool
  /-- The chance of a decoy in front of a call; none if there are to be no decoys. -/
  decoys : Option Chance
  /-- Identities above all that the graph and the pool use. -/
  supply : Supply

/-- A program text and the seed that it came from. -/
structure Variant where
  seed : UInt64
  source : String
  deriving DecidableEq, Inhabited

namespace Synthesis

/-- The C text of one program, with a source of random words. It draws on the identities that programs
before it have left. -/
def produce {σ : Type} [RandomSource σ] (s : Synthesis) (g : Graph) (source : σ) :
    StateT Supply (Except SynthesisError) String := fun supply => do
  let names := Names.empty.reserveAll g.names
  let (g, supply, source) ← match s.decoys with
    | none => pure (g, supply, source)
    | some chance => do
      let i ← g.withDecoys s.pool chance names supply source
      pure (i.graph, i.supply, i.source)
  let ((program, supply), _) ← g.interpretFrom supply source
  return (program.render, supply)

/-- The C text of a program that is the first one, with a source of random words. -/
def runWith {σ : Type} [RandomSource σ] (s : Synthesis) (g : Graph) (source : σ) :
    Except SynthesisError String := do
  return (← s.produce g source s.supply).1

/-- The C text for a seed. -/
def run (s : Synthesis) (g : Graph) (seed : UInt64) : Except SynthesisError String :=
  s.runWith g (ChaCha.ofSeed seed)

/-- The variant for a seed. -/
def variant (s : Synthesis) (g : Graph) (seed : UInt64) : StateT Supply (Except SynthesisError) Variant := do
  return ⟨seed, ← s.produce g (ChaCha.ofSeed seed)⟩

/-- The variants for `count` seeds in a row, one after the other. -/
def variants (s : Synthesis) (g : Graph) (seed : UInt64) (count : Nat) :
    Except SynthesisError (List Variant) := do
  return (← (List.range count).mapM (fun k => s.variant g (seed + UInt64.ofNat k)) s.supply).1

end Synthesis

end Diversity
