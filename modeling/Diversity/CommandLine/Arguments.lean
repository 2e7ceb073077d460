import Diversity.Manifest
/-! The arguments of the command line. -/
namespace Diversity.CommandLine

/-- What a synthesis is asked for. -/
structure Arguments where
  input : Option String := none
  config : Option String := none
  seed : Option UInt64 := none
  count : Option Nat := none
  output : Option String := none
  withoutDecoys : Bool := false
  probability : Option Float := none
  formatter : Option String := none
  verbose : Bool := false
  deriving Inhabited

inductive Request where
  | synthesize (input : String) (arguments : Arguments)
  | version
  | help
  | synthesisHelp
  /-- Help on asking for help. -/
  | helpHelp
  /-- The arguments make no sense. -/
  | misuse
  deriving Inhabited

/-- Options that stand alone. -/
inductive Flag where
  | verbose
  | withoutDecoys
  | help
  | version
  deriving DecidableEq, Inhabited

/-- Options with a value. -/
inductive Setting where
  | config
  | seed
  | count
  | output
  | probability
  | formatter
  deriving DecidableEq, Inhabited

inductive Opt where
  | flag (f : Flag)
  | setting (s : Setting)
  deriving DecidableEq, Inhabited

/-- The options of a synthesis by their long names. -/
def longOption? : String → Option Opt
  | "verbose" => some (.flag .verbose)
  | "no-nops" => some (.flag .withoutDecoys)
  | "help" => some (.flag .help)
  | "config" => some (.setting .config)
  | "seed" => some (.setting .seed)
  | "count" => some (.setting .count)
  | "output" => some (.setting .output)
  | "nop-probability" => some (.setting .probability)
  | "format" => some (.setting .formatter)
  | _ => none

/-- The options of a synthesis by their short names. -/
def shortOption? : Char → Option Opt
  | 'v' => some (.flag .verbose)
  | 'h' => some (.flag .help)
  | 'o' => some (.setting .output)
  | _ => none

/-- The options before the name of a command. -/
def longFlag? : String → Option Flag
  | "verbose" => some .verbose
  | "help" => some .help
  | "version" => some .version
  | _ => none

def shortFlag? : Char → Option Flag
  | 'v' => some .verbose
  | 'h' => some .help
  | 'V' => some .version
  | _ => none

/-- How an argument reads. -/
inductive Token where
  /-- Two dashes: only operands follow. -/
  | terminator
  | long (name : String) (value : Option String)
  | short (cluster : List Char)
  | operand (text : String)
  deriving DecidableEq, Inhabited

def Token.ofText (text : String) : Token :=
  match text.toList with
  | ['-', '-'] => .terminator
  | '-' :: '-' :: s =>
    match s.span (· != '=') with
    | (name, _ :: value) => .long (String.ofList name) (some (String.ofList value))
    | (name, []) => .long (String.ofList name) none
  | '-' :: c :: s => .short (c :: s)
  | _ => .operand text

/-- A number without a sign but perhaps a plus, below a limit. -/
def natural? (limit : Nat) (text : String) : Option Nat :=
  let digits := match text.toList with
    | '+' :: s => s
    | s => s
  if digits.isEmpty || !digits.all Char.isDigit then none
  else
    let n := Text.ofDigits digits
    if n < limit then some n else none

def path? (text : String) : Option String := if text = "" then none else some text

def probability? (text : String) : Option Float :=
  (Decimal.read? text).filter isProbability

namespace Arguments

/-- Gives an option its value, unless it has one. -/
def once {α : Type} (old new : Option α) : Option (Option α) :=
  match old, new with
  | none, some a => some (some a)
  | _, _ => none

/-- Takes a setting over. It must be new and its value must make sense. -/
def set (a : Arguments) (s : Setting) (text : String) : Option Arguments :=
  match s with
  | .config => do return { a with config := ← once a.config (path? text) }
  | .seed => do return { a with seed := ← once a.seed ((natural? (pow2 64) text).map UInt64.ofNat) }
  | .count => do return { a with count := ← once a.count (natural? (pow2 64) text) }
  | .output => do return { a with output := ← once a.output (path? text) }
  | .probability => do return { a with probability := ← once a.probability (probability? text) }
  | .formatter => do return { a with formatter := ← once a.formatter (some text) }

def setInput (a : Arguments) (text : String) : Option Arguments := do
  return { a with input := ← once a.input (path? text) }

/-- Takes a flag over; a help flag settles the request. -/
def setFlag (a : Arguments) : Flag → Except Request Arguments
  | .verbose => if a.verbose then .error .misuse else .ok { a with verbose := true }
  | .withoutDecoys => if a.withoutDecoys then .error .misuse else .ok { a with withoutDecoys := true }
  | .help => .error .synthesisHelp
  | .version => .error .misuse

/-- What remains to be done after a cluster of short options. -/
inductive After where
  | done (a : Arguments)
  /-- The value of the last option is the next argument. -/
  | wants (s : Setting) (a : Arguments)

/-- Reads a cluster of short options. The rest of a cluster is the value of an option that has one. -/
def cluster (a : Arguments) : List Char → Except Request After
  | [] => .ok (.done a)
  | c :: s =>
    match shortOption? c with
    | none => .error .misuse
    | some (.flag f) => do (← a.setFlag f).cluster s
    | some (.setting o) =>
      match s with
      | [] => .ok (.wants o a)
      | '=' :: value | value =>
        match a.set o (String.ofList value) with
        | some a => .ok (.done a)
        | none => .error .misuse

/-- Reads one argument; the result says whether the next one is its value. -/
def take (a : Arguments) (text : String) : Except Request After :=
  match Token.ofText text with
  | .terminator => .ok (.done a)
  | .operand text => ((a.setInput text).map After.done).elim (.error .misuse) .ok
  | .short s => a.cluster s
  | .long name value =>
    match longOption? name, value with
    | some (.flag f), none => (a.setFlag f).map .done
    | some (.setting o), some value => ((a.set o value).map After.done).elim (.error .misuse) .ok
    | some (.setting o), none => .ok (.wants o a)
    | _, _ => .error .misuse

def finish (a : Arguments) : Request := a.input.elim .misuse (.synthesize · a)

/-- Reads operands. -/
def operands (a : Arguments) : List String → Request
  | [] => a.finish
  | text :: rest => (a.setInput text).elim .misuse (·.operands rest)

/-- Reads the arguments of a synthesis. A value that is an argument of its own must not look like an
option. -/
def read (a : Arguments) : List String → Request
  | [] => a.finish
  | text :: rest =>
    if Token.ofText text = .terminator then a.operands rest
    else match a.take text, rest with
      | .error request, _ => request
      | .ok (.done a), rest => a.read rest
      | .ok (.wants _ _), [] => .misuse
      | .ok (.wants s a), value :: rest =>
        match Token.ofText value with
        | .operand _ => (a.set s value).elim .misuse (·.read rest)
        | _ => .misuse

end Arguments

namespace Request

/-- The command whose help is wanted. -/
def ofHelp : List String → Request
  | [] => .help
  | ["synth"] => .synthesisHelp
  | ["help"] => .helpHelp
  | _ => .misuse

/-- Reads a cluster of flags before a command; the result says whether one of them was for more words. -/
def flags (verbose : Bool) : List Char → Except Request Bool
  | [] => .ok verbose
  | c :: s =>
    match shortFlag? c with
    | some .verbose => if verbose then .error .misuse else flags true s
    | some .help => .error .help
    | some .version => .error .version
    | _ => .error .misuse

/-- Reads a command line. -/
def ofArguments (verbose : Bool) : List String → Request
  | [] => .misuse
  | text :: rest =>
    match Token.ofText text with
    | .operand "synth" => ({} : Arguments).read rest
    | .operand "help" => ofHelp rest
    | .short s =>
      match flags verbose s with
      | .ok verbose => ofArguments verbose rest
      | .error request => request
    | .long name none =>
      match longFlag? name with
      | some .verbose => if verbose then .misuse else ofArguments true rest
      | some .help => .help
      | some .version => .version
      | _ => .misuse
    | _ => .misuse

end Request

end Diversity.CommandLine
