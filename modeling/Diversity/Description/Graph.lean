import Diversity.Description.Reader
import Diversity.Description.Resolution
import Diversity.Graph
/-! The graph that a description stands for. -/
namespace Diversity

namespace Description

/-- The externs, and the scope that holds them. -/
def resolveExterns : List Extern → Except CompileError (Scope × List Declaration) :=
  List.foldlM (fun (scope, externs) e => do
    let type ← resolveType (.external e.name) e.type
    let d : Declaration := .free e.name (some type)
    return (← scope.declare (.external e.name) d.var, externs ++ [d])) (.empty, [])

def Chunk.part (c : Chunk) : Part := c.name.elim .anonymousChunk .chunk

def Variable.resolve (part : Part) (scope : Scope) (v : Variable) : Except CompileError Declaration := do
  let type ← resolveType part v.type
  let initial ← v.initial.mapM (·.resolve part scope)
  return ⟨.free v.name (some type), initial⟩

/-- A chunk on its own. Initial values see the externs only. -/
def Chunk.resolve (scope : Scope) (id : ChunkId) (c : Chunk) : Except CompileError Diversity.Chunk := do
  let constraint ← (Chunk.Constraint.ofFlags c.isLocal c.isGlobal c.isStatic).mapError (.graph c.part)
  let vars ← c.vars.mapM (·.resolve c.part scope)
  return .make id c.name constraint vars

/-- Adds a chunk behind the others, or to the first one that has its name. -/
def join (part : Part) (c : Diversity.Chunk) :
    List Diversity.Chunk → Except CompileError (List Diversity.Chunk)
  | [] => .ok [c]
  | d :: ds =>
    if c.name.isSome && d.name == c.name then do
      return (← (d.merge c).mapError (.graph part)) :: ds
    else do return d :: (← join part c ds)

/-- All chunks, numbered from the given supply. -/
def joinAll (scope : Scope) : List Diversity.Chunk → Supply → List Chunk →
    Except CompileError (List Diversity.Chunk × Supply)
  | joined, supply, [] => .ok (joined, supply)
  | joined, supply, c :: cs => do
    let (id, supply) := Supply.chunk supply
    let chunk ← c.resolve scope id
    joinAll scope (← join c.part chunk joined) supply cs

/-- The first element that an earlier one equals. -/
def firstRepeated (seen : List String) : List String → Option String
  | [] => none
  | name :: names => if seen.contains name then some name else firstRepeated (seen ++ [name]) names

/-- The variables of one chunk have different names. -/
def checkDistinct (c : Diversity.Chunk) : Except CompileError Unit :=
  match firstRepeated [] (c.vars.map (·.name)) with
  | some name => .error (.duplicate (.chunk c.label) name)
  | none => .ok ()

def resolveChunks (scope : Scope) (supply : Supply) (chunks : List Chunk) :
    Except CompileError (List Diversity.Chunk × Supply) := do
  let (chunks, supply) ← joinAll scope [] supply chunks
  chunks.forM checkDistinct
  return (chunks, supply)

/-- The scope of the blocks: externs, and the chunks' variables unless they are hidden. -/
def blockScope (scope : Scope) (chunks : List Diversity.Chunk) : Except CompileError Scope :=
  chunks.foldlM (fun scope c =>
    scope.declareAll (.chunk c.label) ((c.vars.map (·.var)).filter (!·.isHidden))) scope

/-- What calls can name: every block, numbered from the given supply. -/
def callees (supply : Supply) (blocks : List Block) : List BlockRef × Supply :=
  (blocks.mapM fun b => do return ⟨b.name, ← Supply.block⟩ : StateM Supply (List BlockRef)) supply

def Block.constraint (b : Block) : Diversity.Block.Constraint := ⟨b.func, b.inline, b.nop⟩

/-- A block whose nodes are numbered from the given supply. -/
def Block.resolve (scope : Scope) (callees : List BlockRef) (id : BlockId) (supply : Supply)
    (b : Block) : Except CompileError (Diversity.Block × Supply) := do
  let statements ← Statement.resolveAll (.block b.name) scope callees b.statements
  let (statements, supply) := Stmt.refreshAll statements supply
  return (⟨id, b.name, b.constraint, statements⟩, supply)

def resolveBlocks (scope : Scope) (callees : List BlockRef) :
    Supply → List (BlockRef × Block) → Except CompileError (List Diversity.Block × Supply)
  | supply, [] => .ok ([], supply)
  | supply, (ref, b) :: rest => do
    let (block, supply) ← b.resolve scope callees ref.id supply
    let (blocks, supply) ← resolveBlocks scope callees supply rest
    return (block :: blocks, supply)

end Description

namespace Graph

def checkChunk (c : Chunk) : Except CompileError Unit :=
  c.vars.forM fun d => d.check.mapError (.mismatch (.chunk c.label))

def checkBlock (b : Block) : Except CompileError Unit :=
  (Stmt.checkAll b.statements).mapError (.mismatch (.block b.name))

/-- Everything in the graph has a type that fits its place. -/
def check (g : Graph) : Except CompileError Unit := do
  g.chunks.forM checkChunk
  g.blocks.toList.forM checkBlock

end Graph

namespace Description

/-- The graph of a description. All identities are drawn from `supply`; the rest of it is returned. -/
def toGraph (d : Description) (supply : Supply) : Except CompileError (Graph × Supply) := do
  let (scope, externs) ← resolveExterns d.externs
  let (chunks, supply) ← resolveChunks scope supply d.chunks
  let scope ← blockScope scope chunks
  if let some name := firstRepeated [] (d.blocks.map (·.name)) then
    throw (.duplicate .blockDeclarations name)
  let (callees, supply) := callees supply d.blocks
  let (blocks, supply) ← resolveBlocks scope callees supply (callees.zip d.blocks)
  let blocks := BlockSet.of blocks
  unless blocks.contains d.entry do throw (.unknownBlock .entry d.entry)
  let g : Graph := ⟨d.entry, chunks, externs, blocks⟩
  g.check
  return (g, supply)

end Description

namespace Graph

/-- The graph that a text describes. -/
def ofText (text : String) (supply : Supply) : Except CompileError (Graph × Supply) := do
  let d ← (Description.ofText text).mapError .malformed
  d.toGraph supply

end Graph

end Diversity
