import Diversity.Host.Filter
import Diversity.Path
/-! A working directory held in memory, and a system made of one. -/
namespace Diversity

/-- Files and directories below a working directory, named by the steps that lead to them. -/
structure Tree where
  files : List (List String × String)
  directories : List (List String)
  deriving DecidableEq, Inhabited

/-- Where a path leads. -/
inductive Tree.Place where
  | within (steps : List String)
  /-- A directory that the working directory is in. -/
  | above
  /-- Somewhere else, where nothing is known to be. -/
  | elsewhere
  deriving DecidableEq, Inhabited

namespace Tree

def ofFiles (files : List (String × String)) : Tree := ⟨files.map fun f => (f.1.splitOn "/", f.2), []⟩

def file? (t : Tree) (steps : List String) : Option String := t.files.lookup steps

/-- A directory is there if it was made or something is in it. -/
def hasDirectory (t : Tree) (steps : List String) : Bool :=
  steps.isEmpty || t.directories.contains steps ||
    t.files.any fun f => steps.isPrefixOf f.1 && steps.length < f.1.length

def Place.up : Place → Place
  | .within [] => .above
  | .within steps => .within steps.dropLast
  | _ => .above

def Place.down (step : String) : Place → Place
  | .within steps => .within (steps ++ [step])
  | _ => .elsewhere

/-- Whether one can go on from a place. -/
def enter (t : Tree) : Place → Except FileFault Unit
  | .within steps =>
    if t.hasDirectory steps then .ok ()
    else if (t.file? steps).isSome then .error .notDirectory
    else .error .missing
  | .above => .ok ()
  | .elsewhere => .error .missing

/-- Goes along the steps of a path. The last place need not exist. -/
def walk (t : Tree) (place : Place) : List String → Except FileFault Place
  | [] => .ok place
  | step :: steps => do
    t.enter place
    if step = "" ∨ step = "." then t.walk place steps
    else if step = ".." then t.walk place.up steps
    else t.walk (place.down step) steps

def start (path : String) : Place := if Path.isAbsolute path then .above else .within []

def locate (t : Tree) (path : String) : Except FileFault Place :=
  if path = "" then .error .missing else t.walk (start path) (path.splitOn "/")

def read (t : Tree) (path : String) : Except FileFault String := do
  match ← t.locate path with
  | .within steps =>
    match t.file? steps with
    | some text => .ok text
    | none => .error (if t.hasDirectory steps then .isDirectory else .missing)
  | .above => .error .isDirectory
  | .elsewhere => .error .missing

/-- Writes a file into a directory that is there. What lies elsewhere is not kept. -/
def write (t : Tree) (path text : String) : Except FileFault Tree := do
  match ← t.locate path with
  | .within steps =>
    if t.hasDirectory steps then .error .isDirectory
    else
      t.enter (.within steps.dropLast)
      .ok { t with files := t.files.filter (·.1 != steps) ++ [(steps, text)] }
  | .above => .error .isDirectory
  | .elsewhere => .ok t

/-- Makes each directory on a way, as far as they are missing. -/
def makeAlong (t : Tree) (place : Place) : List String → Except FileFault Tree
  | [] => .ok t
  | step :: steps =>
    if step = "" ∨ step = "." then t.makeAlong place steps
    else if step = ".." then t.makeAlong place.up steps
    else
      match place.down step with
      | .within made =>
        if t.hasDirectory made then t.makeAlong (.within made) steps
        else if (t.file? made).isSome then
          .error (if steps.isEmpty then .exists else .notDirectory)
        else ({ t with directories := t.directories ++ [made] } : Tree).makeAlong (.within made) steps
      | place => t.makeAlong place steps

def make (t : Tree) (path : String) : Except FileFault Tree := t.makeAlong (start path) (path.splitOn "/")

/-- The files of a tree that another does not have, or has with another text. -/
def changesFrom (t old : Tree) : List (String × String) :=
  (t.files.filter fun f => old.file? f.1 != some f.2).map fun f => ("/".intercalate f.1, f.2)

end Tree

/-- A system in memory: its files, and what was printed. -/
structure Console where
  tree : Tree
  printed : String
  deriving DecidableEq, Inhabited

/-- Does what can fail on a tree and keeps the tree if it fails. -/
def Console.change (f : Tree → Except FileFault Tree) : StateM Console (Except FileFault Unit) := fun c =>
  match f c.tree with
  | .ok tree => (.ok (), { c with tree })
  | .error fault => (.error fault, c)

instance : Host (StateM Console) where
  readFile path := return (← get).tree.read path
  isFile path := return (← get).tree.read path matches .ok _
  makeDirectory path := Console.change (·.make path)
  writeFile path text := Console.change (·.write path text)
  print text := modify fun c => { c with printed := c.printed ++ text }
  warn _ := return
  filter program arguments text := return Filter.apply program arguments text
  randomSeed := return 0

end Diversity
