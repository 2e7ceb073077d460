import Diversity.Decoy.Basic
import Diversity.Description.Graph
/-! The decoys that come with the library. -/
namespace Diversity.DecoyPool

open Description

/-- A description with one chunk and nothing external. -/
private def asset (entry chunk : String) (vars : List Description.Variable)
    (blocks : List Description.Block) : Description :=
  ⟨entry, [], [⟨some chunk, false, false, false, vars⟩], blocks⟩

private def declare (name type : String) : Description.Variable := ⟨name, type, none⟩

private def start (name type : String) (initial : Term) : Description.Variable := ⟨name, type, some initial⟩

private def define (name : String) (statements : List Statement) : Description.Block :=
  ⟨name, false, false, false, statements⟩

private def apply (function : String) (args : List Term) : Term := .call (.var function) args

private def binary (symbol : String) (left right : Term) : Term := .op symbol [left, right]

/-- Writes a text and measures it. -/
def banner : Description :=
  let text := Term.var "decoy_banner_text"
  asset "decoy_banner" "decoy_banner_state"
    [declare "decoy_banner_text" "[32]char", start "decoy_banner_len" "int" (.value "0")]
    [define "decoy_banner"
      [.expr (apply "snprintf" [text, .value "32", .value "\"%s-%d\"", .value "\"build\"", .value "7"]),
        .assign (.var "decoy_banner_len") (.cast (apply "strlen" [text]) "int")]]

/-- Sums up the characters of a text. -/
def checksum : Description :=
  let position := Term.var "decoy_checksum_i"
  let sum := Term.var "decoy_checksum_sum"
  let character := Term.index (.var "decoy_checksum_data") position
  asset "decoy_checksum" "decoy_checksum_state"
    [start "decoy_checksum_data" "[8]char" (.value "\"a1b2c3d\""),
      start "decoy_checksum_i" "int" (.value "0"),
      start "decoy_checksum_sum" "unsigned int" (.value "0")]
    [define "decoy_checksum"
      [.assign position (.value "0"),
        .loop (binary "!=" character (.value "'\\0'"))
          [.assign sum (binary "+" (binary "*" sum (.value "31")) character),
            .assign position (binary "+" position (.value "1"))]]]

/-- Counts down to zero. -/
def countdown : Description :=
  let ticks := Term.var "decoy_countdown_ticks"
  asset "decoy_countdown" "decoy_countdown_state"
    [start "decoy_countdown_ticks" "int" (.value "3")]
    [define "decoy_countdown"
      [.assign ticks (.value "3"),
        .loop (binary ">" ticks (.value "0")) [.call "decoy_countdown_tick"]],
      define "decoy_countdown_tick" [.assign ticks (binary "-" ticks (.value "1"))]]

/-- Mixes the number of the process into a word. -/
def entropy : Description :=
  let process := Term.var "decoy_entropy_pid"
  let mix := Term.var "decoy_entropy_mix"
  asset "decoy_entropy" "decoy_entropy_state"
    [declare "decoy_entropy_pid" "pid_t", start "decoy_entropy_mix" "unsigned int" (.value "0")]
    [define "decoy_entropy"
      [.assign process (apply "getpid" []),
        .assign mix (binary "^" (binary "*" (.cast process "unsigned int") (.value "2654435761u")) mix)]]

/-- Clears a piece of memory and gives it back. -/
def scratch : Description :=
  let pointer := Term.var "decoy_scratch_ptr"
  let nothing := Term.var "NULL"
  asset "decoy_scratch" "decoy_scratch_state"
    [start "decoy_scratch_ptr" "*char" nothing]
    [define "decoy_scratch"
      [.assign pointer (.cast (apply "malloc" [.value "16"]) "*char"),
        .choice
          [.mk (binary "!=" pointer nothing)
            [.expr (apply "memset" [pointer, .value "0", .value "16"]),
              .expr (apply "free" [pointer]),
              .assign pointer nothing]]
          none]]

/-- The graphs of several descriptions, with identities from one supply. -/
def graphsOf : List Description → Supply → Except CompileError (List Graph × Supply)
  | [], supply => .ok ([], supply)
  | d :: ds, supply => do
    let (g, supply) ← d.toGraph supply
    let (gs, supply) ← graphsOf ds supply
    return (g :: gs, supply)

/-- The decoys that are used if no others are given. -/
def shipped (supply : Supply) : Except CompileError (DecoyPool × Supply) := do
  let (graphs, supply) ← graphsOf [banner, checksum, countdown, entropy, scratch] supply
  return (ofGraphs graphs, supply)

end Diversity.DecoyPool
