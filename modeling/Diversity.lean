import Diversity.Block
import Diversity.Builtin
import Diversity.CType.Basic
import Diversity.CType.Declarator
import Diversity.CType.Family
import Diversity.CType.Parser
import Diversity.Capture.Basic
import Diversity.Capture.Join
import Diversity.Capture.Lift
import Diversity.Capture.Usage
import Diversity.Chunk
import Diversity.CommandLine.Arguments
import Diversity.CommandLine.Help
import Diversity.CommandLine.Run
import Diversity.Decimal.Binary
import Diversity.Decimal.Notation
import Diversity.Decimal.Printer
import Diversity.Decimal.Shortest
import Diversity.Decoy.Basic
import Diversity.Decoy.Shipped
import Diversity.Description.Basic
import Diversity.Description.Cursor
import Diversity.Description.Error
import Diversity.Description.Fault
import Diversity.Description.Graph
import Diversity.Description.Reader
import Diversity.Description.Resolution
import Diversity.Description.Scope
import Diversity.Distinct
import Diversity.Error
import Diversity.Expr.Basic
import Diversity.Expr.Substitution
import Diversity.Graph
import Diversity.Host.Basic
import Diversity.Host.Filter
import Diversity.Host.Tree
import Diversity.Identity
import Diversity.Inline
import Diversity.Main
import Diversity.Manifest
import Diversity.Names
import Diversity.Path
import Diversity.Placement
import Diversity.Power
import Diversity.Program.Basic
import Diversity.Program.Lowering
import Diversity.Program.Render
import Diversity.Random.ChaCha
import Diversity.Random.Draw
import Diversity.Random.Source
import Diversity.Report
import Diversity.Stmt.Basic
import Diversity.Synthesis
import Diversity.Text.Blank
import Diversity.Text.Digits
import Diversity.Text.Lines
import Diversity.Text.Printable
import Diversity.Text.Quoted
import Diversity.Toml.Basic
import Diversity.Toml.Number
import Diversity.Toml.Reader
import Diversity.Toml.Text
import Diversity.Trace
import Diversity.Typing
import Diversity.Proofs.MappedCalls
import Diversity.Proofs.Anonymous
import Diversity.Proofs.Execution
import Diversity.Proofs.Expansion
import Diversity.Proofs.Failure
import Diversity.Proofs.BlockSet
import Diversity.Proofs.Splicing
import Diversity.Proofs.Inlined
import Diversity.Proofs.CallPaths
import Diversity.Proofs.Resolved
import Diversity.Proofs.Compiled
import Diversity.Proofs.Access
import Diversity.Proofs.Substituted
import Diversity.Proofs.Decoyed
import Diversity.Proofs.Refinement
import Diversity.Proofs.Occurrences
import Diversity.Proofs.Parameters
import Diversity.Proofs.Lowered
import Diversity.Proofs.Arguments
import Diversity.Proofs.Scoping
import Diversity.Proofs.Sharing
import Diversity.Proofs.Consistency
import Diversity.Proofs.Supplied
import Diversity.Proofs.Activations
import Diversity.Proofs.SimplePaths
import Diversity.Proofs.Simplified
import Diversity.Proofs.Addresses
import Diversity.Proofs.Injected
import Diversity.Proofs.Erasure
import Diversity.Proofs.Branching
import Diversity.Proofs.WellFormed
import Diversity.Proofs.Typed
import Diversity.Proofs.TypePreservation
import Diversity.Proofs.Lockstep
import Diversity.Proofs.Renaming
import Diversity.Proofs.RenamedBlocks
import Diversity.Proofs.RenamedCaptures
import Diversity.Proofs.RenamedPrograms
import Diversity.Proofs.RenamedDecoys
import Diversity.Proofs.Identities
import Diversity.Proofs.Reproducible
import Diversity.Proofs.TypeWords
import Diversity.Proofs.TypeGrammar
import Diversity.Proofs.Dereferenced
import Diversity.Proofs.Naming
import Diversity.Proofs.Needed
import Diversity.Proofs.Placements
import Diversity.Proofs.InlineCycles
import Diversity.Proofs.Identifiers
import Diversity.Proofs.Spelling
import Diversity.Proofs.TypeText
import Diversity.Proofs.Lexing
import Diversity.Proofs.Declarators
import Diversity.Proofs.Precedence
import Diversity.Proofs.Expressions
import Diversity.Proofs.ReadNames
import Diversity.Proofs.Coverage
import Diversity.Proofs.Merged
import Diversity.Proofs.Shapes
import Diversity.Proofs.Canonical
import Diversity.Proofs.Joining
import Diversity.Proofs.PointerChains
import Diversity.Proofs.Grouping
import Diversity.Proofs.Positions
