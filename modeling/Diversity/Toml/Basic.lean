/-! TOML values, and tables as they are put together. -/
namespace Diversity.Toml

/-- How a table came about, which decides what may be added to it. -/
inductive Origin where
  /-- It stands between braces and is complete. -/
  | braces
  /-- A header names it. -/
  | header
  /-- It is on the way to a table that a header names. -/
  | implied
  /-- It is on the way to a dotted key. -/
  | dotted
  deriving DecidableEq, Inhabited

inductive Value where
  | string (s : String)
  | integer (n : Int)
  | float (x : Float)
  | boolean (b : Bool)
  /-- A date or a time; nothing here needs to know which. -/
  | datetime
  | array (items : List Value)
  | table (origin : Origin) (entries : List (String × Value))
  /-- Tables with a common header; only the last can grow. -/
  | tables (items : List (List (String × Value)))
  deriving Inhabited

abbrev Entries := List (String × Value)

namespace Entries

def put (entries : Entries) (key : String) (v : Value) : Entries :=
  if entries.any (·.1 == key) then entries.map fun e => if e.1 == key then (key, v) else e
  else entries ++ [(key, v)]

/-- Follows a path from a table and changes what it leads to. Tables on the way are made if they are
missing. Dotted keys cannot go through a table that a header names. -/
def follow (dotted : Bool) (change : Origin → Entries → Option Entries) :
    List String → Origin → Entries → Option Entries
  | [], origin, entries => change origin entries
  | key :: path, _, entries =>
    match entries.lookup key with
    | none => do
      let origin := if dotted then .dotted else .implied
      let inner ← follow dotted change path origin []
      return entries.put key (.table origin inner)
    | some (.table origin inner) =>
      if origin = .braces ∨ (dotted ∧ origin = .header) then none
      else do
        let inner ← follow dotted change path origin inner
        return entries.put key (.table origin inner)
    | some (.tables items) =>
      match items.getLast? with
      | none => none
      | some last => do
        let last ← follow dotted change path .header last
        return entries.put key (.tables (items.dropLast ++ [last]))
    | some _ => none

/-- Adds a value under a dotted key, whose last part must be new. -/
def insert (path : List String) (key : String) (v : Value) (origin : Origin) (entries : Entries) :
    Option Entries :=
  follow true (fun origin entries =>
    if (origin == .dotted) == path.isEmpty then none
    else if entries.any (·.1 == key) then none
    else some (entries ++ [(key, v)])) path origin entries

/-- Opens a table that a header names; it may have been implied, but nothing else. -/
def openTable (path : List String) (key : String) (entries : Entries) : Option Entries :=
  follow false (fun _ entries =>
    match entries.lookup key with
    | none => some (entries.put key (.table .header []))
    | some (.table .implied inner) => some (entries.put key (.table .header inner))
    | some _ => none) path .header entries

/-- Adds a table to those with a common header. -/
def openTables (path : List String) (key : String) (entries : Entries) : Option Entries :=
  follow false (fun _ entries =>
    match entries.lookup key with
    | none => some (entries.put key (.tables [[]]))
    | some (.tables items) => some (entries.put key (.tables (items ++ [[]])))
    | some _ => none) path .header entries

end Entries

end Diversity.Toml
