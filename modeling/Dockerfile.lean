import Dockerfile.Calendar
import Dockerfile.Check
import Dockerfile.Check.Finding
import Dockerfile.Check.Pattern
import Dockerfile.Check.Resolution
import Dockerfile.Command
import Dockerfile.Command.Invocation
import Dockerfile.Compile
import Dockerfile.Decimal
import Dockerfile.Dependencies
import Dockerfile.Diagnostic
import Dockerfile.Directive
import Dockerfile.Document
import Dockerfile.Document.Dump
import Dockerfile.Drawing
import Dockerfile.File
import Dockerfile.Graph
import Dockerfile.Graph.Dump
import Dockerfile.Image
import Dockerfile.Instruction
import Dockerfile.Instruction.Reader
import Dockerfile.Json.Reader
import Dockerfile.Json.Writer
import Dockerfile.LogicalLine
import Dockerfile.Lower
import Dockerfile.Lower.Plan
import Dockerfile.Lower.Scope
import Dockerfile.Lower.Task
import Dockerfile.Lower.Trace
import Dockerfile.Main
import Dockerfile.Platform
import Dockerfile.Position
import Dockerfile.Request
import Dockerfile.Request.Loader
import Dockerfile.Session
import Dockerfile.Settings
import Dockerfile.Sha256
import Dockerfile.Table
import Dockerfile.Template
import Dockerfile.Text
import Dockerfile.Text.Case
import Dockerfile.Text.Character
import Dockerfile.Token
import Dockerfile.Token.Lexer
import Dockerfile.Value
import Dockerfile.Yaml
import Dockerfile.Yaml.Kind
import Dockerfile.Yaml.Node
import Dockerfile.Yaml.Scalar
import Dockerfile.Yaml.Token
import Dockerfile.Proofs.Dependencies
import Dockerfile.Proofs.Document
import Dockerfile.Proofs.Lowering.Steps
import Dockerfile.Proofs.Lowering.Plans
import Dockerfile.Proofs.Lowering.Stages
import Dockerfile.Proofs.Lowering.Run
import Dockerfile.Proofs.Text
import Dockerfile.Proofs.Lowering.Wiring
import Dockerfile.Proofs.Lowering.Faults
import Dockerfile.Proofs.Lowering.Kept
import Dockerfile.Proofs.Json.Canonical
import Dockerfile.Proofs.Json.Equality
import Dockerfile.Proofs.Lowering.Payload
import Dockerfile.Proofs.Lowering.Keys
import Dockerfile.Proofs.Lowering.Upstream
import Dockerfile.Proofs.Lowering.Locality
import Dockerfile.Proofs.Lowering.Pruning
import Dockerfile.Proofs.Lowering.Platforms
import Dockerfile.Proofs.Lowering.Sources
import Dockerfile.Proofs.Lowering.Downstream
import Dockerfile.Proofs.Lowering.Scopes
import Dockerfile.Proofs.Lowering.Checked
import Dockerfile.Proofs.Lowering.Replay
import Dockerfile.Proofs.Lowering.Variables
import Dockerfile.Proofs.Lowering.Unused
import Dockerfile.Proofs.Lowering.Required
import Dockerfile.Proofs.Quotes
import Dockerfile.Proofs.Template.Grammar
import Dockerfile.Proofs.Template.Values
import Dockerfile.Proofs.Template.Lookups
import Dockerfile.Proofs.Lowering.Protection
import Dockerfile.Proofs.Images
import Dockerfile.Proofs.Accepted
import Dockerfile.Proofs.Lowering.Verbatim
import Dockerfile.Proofs.Relocation
import Dockerfile.Proofs.Lexing.Cuts
import Dockerfile.Proofs.Lexing.Moves
import Dockerfile.Proofs.Lexing.Entries
import Dockerfile.Proofs.Lexing.Spans
import Dockerfile.Proofs.Lexing.Borders
import Dockerfile.Proofs.Lexing.Continuations
import Dockerfile.Proofs.Lowering.Relocation
import Dockerfile.Proofs.Lexing.Comments
import Dockerfile.Proofs.Lexing.Agreement
import Dockerfile.Proofs.Lexing.Lines
import Dockerfile.Proofs.Lexing.Triggers
import Dockerfile.Proofs.Json.Strings
import Dockerfile.Proofs.Lexing.Arrays
import Dockerfile.Proofs.Lowering.Added
import Dockerfile.Proofs.CommandArrays
import Dockerfile.Proofs.Outcomes
import Dockerfile.Proofs.PathArrays
import Dockerfile.Proofs.Lexing.Starts
import Dockerfile.Proofs.Checking.Places
import Dockerfile.Proofs.Checking.References
import Dockerfile.Proofs.Checking.Variables
import Dockerfile.Proofs.Lowering.Missing
import Dockerfile.Proofs.Lowering.Requested
import Dockerfile.Proofs.Lowering.Seen
import Dockerfile.Proofs.Sessions
import Dockerfile.Proofs.Searches
import Dockerfile.Proofs.Requests
import Dockerfile.Proofs.Paths
import Dockerfile.Proofs.Lowering.Configs
import Dockerfile.Proofs.Lowering.Ports
import Dockerfile.Proofs.Lexing.Brackets
import Dockerfile.Proofs.Lexing.ArrayEscapes
import Dockerfile.Proofs.Lexing.Barred
import Dockerfile.Proofs.Lexing.Drafts
import Dockerfile.Proofs.CommandModes
import Dockerfile.Proofs.Lexing.Keywords
import Dockerfile.Proofs.Lexing.Layout
import Dockerfile.Proofs.Lowering.Durations
import Dockerfile.Proofs.Dot.Labels
