import Diversity.CType.Basic
/-! The symbols that the C library brings along. -/
namespace Diversity

/-- What a library symbol names. -/
inductive Builtin.Kind where
  | function
  | variable
  | type
  deriving DecidableEq, Inhabited

/-- A symbol of the C library: how C spells it, the header that declares it and, unless it is a type,
its own type. -/
structure Builtin where
  name : String
  spelling : String
  header : String
  kind : Builtin.Kind
  type : Option CType
  deriving Inhabited

namespace Builtin

private def int : CType := .named "int"
private def char : CType := .named "char"
private def text : CType := .pointer char
private def size : CType := .named "size_t"
private def address : CType := .pointer .void
private def file : CType := .pointer (.named "FILE")
private def unsigned : CType := .named "unsigned int"

private def types (header : String) (names : List String) : List Builtin :=
  names.map fun name => ⟨name, name, header, .type, none⟩

private def vars (header : String) (entries : List (String × CType)) : List Builtin :=
  entries.map fun (name, t) => ⟨name, name, header, .variable, some t⟩

private def functions (header : String) (entries : List (String × List CType × CType)) :
    List Builtin :=
  entries.map fun (name, params, result) =>
    ⟨name, name, header, .function, some (.function result params false)⟩

/-- Functions that take any further arguments after the listed ones. -/
private def openFunctions (header : String) (entries : List (String × List CType × CType)) :
    List Builtin :=
  entries.map fun (name, params, result) =>
    ⟨name, name, header, .function, some (.function result params true)⟩

/-- All known symbols. -/
def table : List Builtin :=
  types "stddef.h" ["size_t"] ++
  types "sys/types.h" ["ssize_t", "pid_t"] ++
  types "stdbool.h" ["bool"] ++
  types "stdint.h" ["int8_t", "int16_t", "int32_t", "int64_t", "uint8_t", "uint16_t", "uint32_t",
    "uint64_t", "uintptr_t"] ++
  types "stdio.h" ["FILE"] ++
  [⟨"NULL", "NULL", "stddef.h", .variable, some address⟩,
    ⟨"null", "NULL", "stddef.h", .variable, some address⟩] ++
  vars "stdbool.h" [("true", .named "bool"), ("false", .named "bool")] ++
  vars "stdio.h" [("stdin", file), ("stdout", file), ("stderr", file), ("_IONBF", int),
    ("EOF", int)] ++
  vars "errno.h" [("errno", int)] ++
  openFunctions "stdio.h" [("printf", [text], int), ("sprintf", [text, text], int),
    ("snprintf", [text, size, text], int), ("scanf", [text], int)] ++
  functions "stdio.h" [("puts", [text], int), ("putchar", [int], int), ("getchar", [], int),
    ("gets", [text], text), ("fgets", [text, int, file], text), ("fflush", [file], int),
    ("setvbuf", [file, text, int, size], int)] ++
  functions "string.h" [("strcpy", [text, text], text), ("strncpy", [text, text, size], text),
    ("strcat", [text, text], text), ("strcmp", [text, text], int),
    ("strncmp", [text, text, size], int), ("strlen", [text], size), ("strchr", [text, int], text),
    ("memset", [address, int, size], address), ("memcpy", [address, address, size], address),
    ("memcmp", [address, address, size], int)] ++
  functions "stdlib.h" [("malloc", [size], address), ("calloc", [size, size], address),
    ("free", [address], .void), ("exit", [int], .void), ("abort", [], .void), ("atoi", [text], int),
    ("system", [text], int), ("rand", [], int), ("srand", [unsigned], .void)] ++
  functions "unistd.h" [("read", [int, address, size], .named "ssize_t"),
    ("write", [int, address, size], .named "ssize_t"), ("sleep", [unsigned], unsigned),
    ("alarm", [unsigned], unsigned), ("getpid", [], .named "pid_t")]

def find? (name : String) : Option Builtin := table.find? (·.name == name)

def isKnown (name : String) : Bool := (find? name).isSome

/-- How C spells a name; a name that is not in the table is spelled as it is. -/
def spell (name : String) : String := (find? name).elim name (·.spelling)

def header? (name : String) : Option String := (find? name).map (·.header)

/-- The type of a library function or variable. -/
def type? (name : String) : Option CType := (find? name).bind (·.type)

end Builtin

end Diversity
