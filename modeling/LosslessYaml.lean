import LosslessYaml.Assembly
import LosslessYaml.Command
import LosslessYaml.Command.Run
import LosslessYaml.Document
import LosslessYaml.Event
import LosslessYaml.Event.Replay
import LosslessYaml.Focus
import LosslessYaml.Fold
import LosslessYaml.Frontmatter
import LosslessYaml.Grammar.Block
import LosslessYaml.Grammar.Flow
import LosslessYaml.Grammar.Lookahead
import LosslessYaml.Grammar.Rule
import LosslessYaml.Grammar.Scalar
import LosslessYaml.Grammar.Stream
import LosslessYaml.Host
import LosslessYaml.Host.Files
import LosslessYaml.Host.Template
import LosslessYaml.Indent
import LosslessYaml.Kind
import LosslessYaml.Language
import LosslessYaml.Main
import LosslessYaml.Mixed
import LosslessYaml.Settings
import LosslessYaml.Text.Alphanumeric
import LosslessYaml.Text.Blank
import LosslessYaml.Text.Decimal
import LosslessYaml.Text.Offset
import LosslessYaml.Text.Utf8
import LosslessYaml.Token
import LosslessYaml.Token.Lexer
import LosslessYaml.Token.Placement
import LosslessYaml.Toml.Quoted
import LosslessYaml.Toml.Reader
import LosslessYaml.Toml.Scalar
import LosslessYaml.Toml.Value
import LosslessYaml.Tree
import LosslessYaml.Tree.Located
import LosslessYaml.Proofs.Grammar.Lossless
import LosslessYaml.Proofs.Grammar.Progress
import LosslessYaml.Proofs.Grammar.Recursion
import LosslessYaml.Proofs.Assembly.Plan
import LosslessYaml.Proofs.Assembly.Replay
import LosslessYaml.Proofs.Assembly.Rule
import LosslessYaml.Proofs.Lossless
import LosslessYaml.Proofs.Tree.Every
import LosslessYaml.Proofs.Tree.Schema
import LosslessYaml.Proofs.Schema.Flow
import LosslessYaml.Proofs.Schema.Block
import LosslessYaml.Proofs.Token.Standing
import LosslessYaml.Proofs.Tree.Layout
import LosslessYaml.Proofs.Layout.Plain
import LosslessYaml.Proofs.Layout.Line
import LosslessYaml.Proofs.Layout.Block
import LosslessYaml.Proofs.Token.Append
import LosslessYaml.Proofs.Boundary.Lookahead
import LosslessYaml.Proofs.Boundary.Flow
import LosslessYaml.Proofs.Boundary.Block
import LosslessYaml.Proofs.Boundary.Stream
import LosslessYaml.Proofs.Text.Lines
import LosslessYaml.Proofs.Text.Place
import LosslessYaml.Proofs.Frontmatter.Fences
import LosslessYaml.Proofs.Frontmatter.Services
import LosslessYaml.Proofs.Token.LineFeed
import LosslessYaml.Proofs.Layout.Scalar
import LosslessYaml.Proofs.Layout.Entry
import LosslessYaml.Proofs.Layout.Deeper
import LosslessYaml.Proofs.Tree.Prune
import LosslessYaml.Proofs.Writing.Block
import LosslessYaml.Proofs.Writing.Read
import LosslessYaml.Proofs.Writing.Rules
import LosslessYaml.Proofs.Writing.Parse
import LosslessYaml.Proofs.Rendering.Value
import LosslessYaml.Proofs.Rendering.Parse
import LosslessYaml.Proofs.Fold.Nodes
import LosslessYaml.Proofs.Fold.AtLine
import LosslessYaml.Proofs.Fold.Repeats
import LosslessYaml.Proofs.Fold.FirstBreak
import LosslessYaml.Proofs.Grammar.Retext
import LosslessYaml.Proofs.LineBreak
import LosslessYaml.Proofs.Outline.Parse
import LosslessYaml.Proofs.Outline.Lines
import LosslessYaml.Proofs.Outline.Nodes
import LosslessYaml.Proofs.Outline.Opinion
import LosslessYaml.Proofs.Indent.Opinion
import LosslessYaml.Proofs.Text.Column
import LosslessYaml.Proofs.Outline.Indent
import LosslessYaml.Proofs.Tree.Address
import LosslessYaml.Proofs.Tree.Descent
import LosslessYaml.Proofs.Tree.Parent
import LosslessYaml.Proofs.Tree.Innermost
import LosslessYaml.Proofs.Mixed.Mounts
import LosslessYaml.Proofs.Indent.BaseLine
import LosslessYaml.Proofs.Assembly.Checked
import LosslessYaml.Proofs.Assembly.Call
import LosslessYaml.Proofs.Assembly.Orderly
import LosslessYaml.Proofs.Assembly.Piece
import LosslessYaml.Proofs.Assembly.Record
import LosslessYaml.Proofs.Assembly.Abandon
import LosslessYaml.Proofs.Indent.Bound
import LosslessYaml.Proofs.Token.Edge
import LosslessYaml.Proofs.Flow.Nesting
import LosslessYaml.Proofs.Flow.Brackets
import LosslessYaml.Proofs.Flow.Written
import LosslessYaml.Proofs.Flow.Rules
import LosslessYaml.Proofs.Flow.Parse
import LosslessYaml.Proofs.Grammar.Origin
import LosslessYaml.Proofs.Grammar.Separator
import LosslessYaml.Proofs.Text.Blanks
import LosslessYaml.Proofs.Indent.Closing
import LosslessYaml.Proofs.Indent.Content
import LosslessYaml.Proofs.Token.Quoting
import LosslessYaml.Proofs.Token.Partition
import LosslessYaml.Proofs.Token.Restart
import LosslessYaml.Proofs.Tree.Border
import LosslessYaml.Proofs.Trim.Forest
import LosslessYaml.Proofs.Trim.Inline
import LosslessYaml.Proofs.Trim.Block
import LosslessYaml.Proofs.Trim.Parse
import LosslessYaml.Proofs.Token.Column
import LosslessYaml.Proofs.Text.Numbering
import LosslessYaml.Proofs.Text.Counting
import LosslessYaml.Proofs.Command.Arguments
import LosslessYaml.Proofs.Command.ShowSettings
import LosslessYaml.Proofs.Text.Width
import LosslessYaml.Proofs.Grammar.ContentRun
import LosslessYaml.Proofs.Text.Decimal
import LosslessYaml.Proofs.Text.Utf8
import LosslessYaml.Proofs.Toml.Assignment
import LosslessYaml.Proofs.Settings
