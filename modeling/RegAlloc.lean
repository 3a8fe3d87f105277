import RegAlloc.Allocation
import RegAlloc.Annotated
import RegAlloc.Assembly
import RegAlloc.Coloring
import RegAlloc.CommandLine.Arguments
import RegAlloc.CommandLine.Options
import RegAlloc.CommandLine.Path
import RegAlloc.CommandLine.Run
import RegAlloc.CommandLine.Terminal
import RegAlloc.FileTree
import RegAlloc.FileTree.Names
import RegAlloc.Flow
import RegAlloc.Graph
import RegAlloc.IdSet
import RegAlloc.Interference
import RegAlloc.Journal
import RegAlloc.Liveness
import RegAlloc.Main
import RegAlloc.Opcode
import RegAlloc.Palette
import RegAlloc.Program
import RegAlloc.Program.Builder
import RegAlloc.Program.Parser
import RegAlloc.Session
import RegAlloc.Session.Journal
import RegAlloc.Session.Output
import RegAlloc.Text.Blank
import RegAlloc.Text.Control
import RegAlloc.Text.Decimal
import RegAlloc.Text.Split
import RegAlloc.Token
import RegAlloc.Token.Lexer
import RegAlloc.Proofs.Refusal
import RegAlloc.Proofs.Graph.Edges
import RegAlloc.Proofs.Graph.Construction
import RegAlloc.Proofs.Interference.Conflict
import RegAlloc.Proofs.Interference.Rules
import RegAlloc.Proofs.Allocation.Correctness
import RegAlloc.Proofs.Allocation.Selection
import RegAlloc.Proofs.Coloring.Completeness
import RegAlloc.Proofs.Coloring.Core
import RegAlloc.Proofs.Allocation.Outcome
import RegAlloc.Proofs.FileTree.Paths
import RegAlloc.Proofs.FileTree.Creation
import RegAlloc.Proofs.CommandLine.Extension
import RegAlloc.Proofs.Flow.Nodes
import RegAlloc.Proofs.Flow.Edges
import RegAlloc.Proofs.Flow.Building
import RegAlloc.Proofs.Liveness.Semantics
import RegAlloc.Proofs.Liveness.Correctness
import RegAlloc.Proofs.Liveness.FixedPoint
import RegAlloc.Proofs.Session.Passes
import RegAlloc.Proofs.Session.Output
import RegAlloc.Proofs.Session.Contract
import RegAlloc.Proofs.Session.Stability
import RegAlloc.Proofs.Session.Monotonicity
import RegAlloc.Proofs.Session.Emission
import RegAlloc.Proofs.Safety.Access
import RegAlloc.Proofs.Safety.Lexing
import RegAlloc.Proofs.Safety.Parsing
import RegAlloc.Proofs.Safety.Analysis
import RegAlloc.Proofs.Safety.Allocation
import RegAlloc.Proofs.Safety.Emission
import RegAlloc.Proofs.Safety.Records
import RegAlloc.Proofs.Safety.Session
import RegAlloc.Proofs.Program.Refusals
import RegAlloc.Proofs.Program.Numbering
import RegAlloc.Proofs.Program.Scanning
import RegAlloc.Proofs.Program.Tables
import RegAlloc.Proofs.Program.Parsing
import RegAlloc.Proofs.Program.Kinds
import RegAlloc.Proofs.Program.Statement
import RegAlloc.Proofs.Program.Reading
import RegAlloc.Proofs.Program.Admission
import RegAlloc.Proofs.Program.Operands
import RegAlloc.Proofs.Program.Acceptance
import RegAlloc.Proofs.Program.Faults
import RegAlloc.Proofs.Program.Linked
import RegAlloc.Proofs.Program.Names
import RegAlloc.Proofs.Token.Sequence
import RegAlloc.Proofs.Machine.Semantics
import RegAlloc.Proofs.Machine.Simulation
import RegAlloc.Proofs.Assembly.Listing
import RegAlloc.Proofs.Assembly.Control
import RegAlloc.Proofs.Assembly.Decoding
import RegAlloc.Proofs.Program.Calls
import RegAlloc.Proofs.Program.Representation
import RegAlloc.Proofs.Program.Labels
import RegAlloc.Proofs.Token.Layout
import RegAlloc.Proofs.Token.Lexeme
import RegAlloc.Proofs.Program.Spacing
import RegAlloc.Proofs.Program.Renaming
import RegAlloc.Proofs.Session.Renaming
import RegAlloc.Proofs.Liveness.Convergence
import RegAlloc.Proofs.Flow.Construction
import RegAlloc.Proofs.Assembly.Symbols
import RegAlloc.Proofs.Coloring.FirstFit
import RegAlloc.Proofs.Coloring.Elimination
import RegAlloc.Proofs.Interference.Exactness
import RegAlloc.Proofs.Session.Usage
import RegAlloc.Proofs.Program.Prefixes
import RegAlloc.Proofs.Assembly.Numerals
import RegAlloc.Proofs.Program.Ranges
import RegAlloc.Proofs.Assembly.Literals
import RegAlloc.Proofs.Session.Literals
import RegAlloc.Proofs.Palette.Registers
import RegAlloc.Proofs.CommandLine.Configuration
import RegAlloc.Proofs.CommandLine.Effect
import RegAlloc.Proofs.CommandLine.DefaultOutput
