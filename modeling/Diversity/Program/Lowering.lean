import Diversity.Capture.Lift
import Diversity.Inline
import Diversity.Program.Basic
import Diversity.Trace
/-! The program of a placed graph. -/
namespace Diversity

/-- A parameter of a function, and the variable that it stands for. -/
structure Parameter where
  key : Option ChunkId × String
  lifted : Lifted
  deriving Inhabited

/-- The parameters of every function. -/
abbrev Parameters := List (String × List Parameter)

namespace Parameters

def of (ps : Parameters) (function : String) : List Parameter := (ps.lookup function).getD []

/-- All usages of parameters. -/
def substitution (ps : Parameters) : Substitution :=
  ps.flatMap fun (_, l) => l.flatMap (·.lifted.substitution)

end Parameters

namespace BlockSet

/-- The block with the given name. -/
def get (bs : BlockSet) (name : String) : Except SynthesisError Block :=
  match bs.find? name with
  | some b => .ok b
  | none => .error (.unknownBlock name)

end BlockSet

namespace Trace

/-- The function that declares a local chunk: its home, or the root if nothing uses it. -/
def site (t : Trace) (c : ChunkId) : String := (t.home? c).getD t.root

/-- A block becomes a function that takes the local variables it needs from above. -/
def parametersOf (t : Trace) (bs : BlockSet) (p : Placement) (name : String) :
    Except SynthesisError (List Parameter) := do
  let b ← bs.get name
  ((t.needs name).filter (·.chunk.any p.isLocal)).mapM fun v => do return ⟨v.key, ← b.lift bs v⟩

def parameters (t : Trace) (bs : BlockSet) (p : Placement) : Except SynthesisError Parameters :=
  t.blocks.mapM fun name => do return (name, ← t.parametersOf bs p name)

/-- The variable with the given key is declared in the function. -/
def declares (t : Trace) (function : String) (key : Option ChunkId × String) : Bool :=
  key.1.any (t.site · == function)

end Trace

/-- A capture as an argument. -/
def Capture.argument (c : Capture) : Expr := c.toArgument.simplify.toExpr

namespace Parameter

/-- What `caller` passes for a parameter: what it got for the same variable, or the variable itself. -/
def argument (t : Trace) (caller : String) (own : List Parameter) (p : Parameter) :
    Except SynthesisError Expr :=
  match own.find? (·.key = p.key) with
  | some q =>
    .ok (p.lifted.maximal.through q.lifted.maximal (.var .unnumbered q.lifted.param.var)).argument
  | none =>
    if t.declares caller p.key then .ok p.lifted.maximal.argument
    else .error (.unresolvedArgument caller p.key.2)

def type (p : Parameter) : CType := p.lifted.param.var.type.getD .void

end Parameter

/-- A call of a block as a call of the function that it has become. -/
def callFunction (t : Trace) (ps : Parameters) (caller : String) (callee : BlockRef) :
    Except SynthesisError Stmt := do
  let params := ps.of callee.name
  let args ← params.mapM (·.argument t caller (ps.of caller))
  let function := Variable.free callee.name (some (.function .void (params.map (·.type)) false))
  return .expr .unnumbered (.call .unnumbered (.var .unnumbered function) args)

namespace Graph

/-- The chunks that a function declares. -/
def chunksAt (g : Graph) (p : Placement) (t : Trace) (function : String) : List Chunk :=
  g.chunks.filter fun c => p.isLocal c.id && t.site c.id == function

/-- The function that a block becomes. -/
def lowerBlock (g : Graph) (p : Placement) (t : Trace) (ps : Parameters) (b : Block) :
    Except SynthesisError Function := do
  let body := Stmt.mapExprsOfAll (·.substitute ps.substitution) b.statements
  let body ← Stmt.mapCallsOfAll (fun _ callee => do
    return some [← callFunction t ps b.name callee]) body
  let chunks := g.chunksAt p t b.name
  return {
    name := b.name
    result := if b.name == "main" then .named "int" else .void
    params := (ps.of b.name).map (·.lifted.param)
    statics := (chunks.filter (·.constraint.isStatic)).flatMap (·.vars)
    locals := (chunks.filter (!·.constraint.isStatic)).flatMap (·.vars)
    body }

/-- The variables of the chunks that are not local. -/
def globals (g : Graph) (p : Placement) : List Global :=
  (g.chunks.filter (!p.isLocal ·.id)).flatMap fun c =>
    c.vars.map fun d => ⟨d, c.constraint.isStatic⟩

/-- The program of blocks that have been spliced according to a placement. -/
def lower (g : Graph) (bs : BlockSet) (p : Placement) : Except SynthesisError Program := do
  let root ← bs.get g.entry
  let t ← Trace.ofBlock bs root true
  let ps ← t.parameters bs p
  let functions ← t.blocks.mapM fun name => do g.lowerBlock p t ps (← bs.get name)
  return ⟨distinctBy (·.name) (g.externs ++ t.externs.map (⟨·, none⟩)), g.globals p, functions⟩

/-- A program for the graph, under a placement by chance, and the identities that are left for others. -/
def interpretFrom {σ : Type} [RandomSource σ] (g : Graph) (supply : Supply) :
    StateT σ (Except SynthesisError) (Program × Supply) := do
  let p ← Placement.draw g
  let (blocks, supply) ← p.inline g.blocks supply
  let bs ← BlockSet.repaired blocks
  return (← g.lower bs p, supply)

/-- A program for the graph, under a placement by chance. -/
def interpret {σ : Type} [RandomSource σ] (g : Graph) (supply : Supply) :
    StateT σ (Except SynthesisError) Program := do
  return (← g.interpretFrom supply).1

end Graph

end Diversity
