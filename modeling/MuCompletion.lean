import MuCompletion.CommandLine.Arguments
import MuCompletion.CommandLine.Command
import MuCompletion.CommandLine.Directory
import MuCompletion.Completion.Candidate
import MuCompletion.Completion.Context
import MuCompletion.Completion.Vocabulary
import MuCompletion.Config.Basic
import MuCompletion.Config.Reader
import MuCompletion.Decimal.Shortest
import MuCompletion.Document.Basic
import MuCompletion.Document.Region
import MuCompletion.Error
import MuCompletion.Json.Basic
import MuCompletion.Json.Float
import MuCompletion.Json.Reader
import MuCompletion.Json.Token
import MuCompletion.Json.Writer
import MuCompletion.Language.BuiltinType
import MuCompletion.Language.Keyword
import MuCompletion.Main
import MuCompletion.Proofs.CommandLine.Records
import MuCompletion.Proofs.Completion.Body
import MuCompletion.Proofs.Completion.Context
import MuCompletion.Proofs.Completion.Extras
import MuCompletion.Proofs.Completion.Lines
import MuCompletion.Proofs.Completion.Ranking
import MuCompletion.Proofs.Completion.Typing
import MuCompletion.Proofs.Completion.Vocabulary
import MuCompletion.Proofs.Document
import MuCompletion.Proofs.Document.Region
import MuCompletion.Proofs.Lookup
import MuCompletion.Proofs.Scope.Body
import MuCompletion.Proofs.Scope.Braces
import MuCompletion.Proofs.Scope.Builder
import MuCompletion.Proofs.Scope.Chain
import MuCompletion.Proofs.Scope.Complete
import MuCompletion.Proofs.Scope.Control
import MuCompletion.Proofs.Scope.Differences
import MuCompletion.Proofs.Scope.Documentation
import MuCompletion.Proofs.Scope.Edges
import MuCompletion.Proofs.Scope.Extent
import MuCompletion.Proofs.Scope.Frames
import MuCompletion.Proofs.Scope.Gap
import MuCompletion.Proofs.Scope.Header
import MuCompletion.Proofs.Scope.Layout
import MuCompletion.Proofs.Scope.Moved
import MuCompletion.Proofs.Scope.Naming
import MuCompletion.Proofs.Scope.Nesting
import MuCompletion.Proofs.Scope.Numbering
import MuCompletion.Proofs.Scope.Paired
import MuCompletion.Proofs.Scope.Parameters
import MuCompletion.Proofs.Scope.Placed
import MuCompletion.Proofs.Scope.Progress
import MuCompletion.Proofs.Scope.Reading
import MuCompletion.Proofs.Scope.Reattached
import MuCompletion.Proofs.Scope.Reuse
import MuCompletion.Proofs.Scope.Rooted
import MuCompletion.Proofs.Scope.Sharing
import MuCompletion.Proofs.Scope.Spared
import MuCompletion.Proofs.Scope.Waiting
import MuCompletion.Proofs.Scope.Worklist
import MuCompletion.Proofs.Server.Change
import MuCompletion.Proofs.Server.Interleaving
import MuCompletion.Proofs.Server.Leftover
import MuCompletion.Proofs.Server.Lock
import MuCompletion.Proofs.Server.Newest
import MuCompletion.Proofs.Server.SortText
import MuCompletion.Proofs.Text.Blank
import MuCompletion.Proofs.Text.Cursor
import MuCompletion.Proofs.Text.Lines
import MuCompletion.Proofs.Text.Order
import MuCompletion.Proofs.Text.Position
import MuCompletion.Proofs.Text.Split
import MuCompletion.Proofs.Token.Comment
import MuCompletion.Proofs.Token.Local
import MuCompletion.Proofs.Token.Lookahead
import MuCompletion.Proofs.Token.Relex
import MuCompletion.Proofs.Token.Report
import MuCompletion.Proofs.Token.Shape
import MuCompletion.Proofs.Token.Stream
import MuCompletion.Proofs.Workspace
import MuCompletion.Scope.Basic
import MuCompletion.Scope.Builder
import MuCompletion.Scope.Outline
import MuCompletion.Scope.Reuse
import MuCompletion.Scope.Tree
import MuCompletion.Server.Basic
import MuCompletion.Server.Item
import MuCompletion.Server.Session
import MuCompletion.Text.Blank
import MuCompletion.Text.Bytes
import MuCompletion.Text.Edit
import MuCompletion.Text.Line
import MuCompletion.Text.Position
import MuCompletion.Text.Printable
import MuCompletion.Text.Quoted
import MuCompletion.Text.Span
import MuCompletion.Token.Basic
import MuCompletion.Token.Comment
import MuCompletion.Token.Relex
import MuCompletion.Token.Scan
import MuCompletion.Workspace
