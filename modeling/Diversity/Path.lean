/-! Names of files: components between slashes. -/
namespace Diversity.Path

def isAbsolute (path : String) : Bool := path.toList.head? == some '/'

/-- The front of a path that no component can be taken from: the root, or the directory that a
relative path names as its start. -/
def anchor (path : String) : String :=
  match path.toList with
  | '/' :: _ => "/"
  | ['.'] => "."
  | '.' :: '/' :: _ => "."
  | _ => ""

/-- The pieces after the anchor, the last one first. -/
def pieces (path : String) : List String :=
  match path.toList.drop (anchor path).length with
  | [] => []
  | body => ((String.ofList body).splitOn "/").reverse

/-- A piece that does not lead anywhere. -/
def isIdle (piece : String) : Bool := piece == "" || piece == "."

/-- The pieces from the last component back. -/
def components (path : String) : List String := (pieces path).dropWhile isIdle

/-- The directory that holds the last component; nothing holds the root or the empty path. -/
def parent? (path : String) : Option String :=
  match components path with
  | _ :: front => some (anchor path ++ "/".intercalate (front.dropWhile isIdle).reverse)
  | [] => if anchor path == "." then some "" else none

/-- The last component, unless it is the way up. -/
def fileName? (path : String) : Option String :=
  match components path with
  | name :: _ => if name == ".." then none else some name
  | [] => none

/-- A file name without what follows its last dot. A dot in front does not count. -/
def stemOf (name : String) : String :=
  match (name.toList.reverse).span (· != '.') with
  | (_, '.' :: front) => if front.isEmpty then name else String.ofList front.reverse
  | _ => name

def fileStem? (path : String) : Option String := (fileName? path).map stemOf

/-- A path below a directory. An absolute path stays as it is. -/
def join (directory path : String) : String :=
  if isAbsolute path then path
  else if directory == "" || directory.toList.getLast? == some '/' then directory ++ path
  else directory ++ "/" ++ path

end Diversity.Path
