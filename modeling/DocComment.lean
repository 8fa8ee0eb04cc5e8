import DocComment.Command.Expansion
import DocComment.Command.FileTree
import DocComment.Command.Glob
import DocComment.Command.Log
import DocComment.Command.Options
import DocComment.Command.PathName
import DocComment.Command.Run
import DocComment.Comment.Body
import DocComment.Comment.Heading
import DocComment.Comment.Lines
import DocComment.Comment.Sections
import DocComment.Json.Printer
import DocComment.Json.Value
import DocComment.Main
import DocComment.Output.Format
import DocComment.Output.Json
import DocComment.Output.Markdown
import DocComment.Param.Branch
import DocComment.Param.Draft
import DocComment.Param.Entry
import DocComment.Param.Path
import DocComment.Param.Tree
import DocComment.Proofs.Comment.Layout
import DocComment.Proofs.Comment.Prose
import DocComment.Proofs.Param.Key
import DocComment.Proofs.Param.Order
import DocComment.Proofs.Param.Refinement
import DocComment.Proofs.Param.Shape
import DocComment.Proofs.Param.Storage
import DocComment.Proofs.Param.Writing
import DocComment.Proofs.Record.Assembly
import DocComment.Proofs.Record.RoundTrip
import DocComment.Proofs.Record.Shape
import DocComment.Proofs.Source.Grammar
import DocComment.Proofs.Source.Position
import DocComment.Proofs.Tag.Line
import DocComment.Proofs.Text.Trimmed
import DocComment.Proofs.Types.Spelling
import DocComment.Record
import DocComment.Source.Bytes
import DocComment.Source.Token
import DocComment.Tag.Basic
import DocComment.Tag.Layout
import DocComment.Tag.Throws
import DocComment.Text.Affix
import DocComment.Text.Blank
import DocComment.Text.Case
import DocComment.Text.CaseTable
import DocComment.Text.Identifier
import DocComment.Text.Utf8
import DocComment.Types.Expr
import DocComment.Types.Name
import DocComment.Proofs.Source.Agreement
import DocComment.Proofs.Comment.Delimiters
import DocComment.Proofs.Json.Reader
import DocComment.Proofs.Json.RoundTrip
import DocComment.Proofs.Param.Vocabulary
import DocComment.Proofs.Record.Recovery
import DocComment.Proofs.Command.FileTree
import DocComment.Proofs.Command.Outputs
import DocComment.Proofs.Text.Lower
import DocComment.Proofs.Text.Lowered
import DocComment.Proofs.Text.Field
import DocComment.Proofs.Comment.Clean
import DocComment.Proofs.Record.Clean
import DocComment.Proofs.Source.Seam
import DocComment.Proofs.Comment.Folding
import DocComment.Proofs.Record.Kinds
import DocComment.Proofs.Command.Modes
import DocComment.Proofs.Text.LineEnding
import DocComment.Proofs.Record.LineEnding
import DocComment.Proofs.Source.LineEnding
import DocComment.Proofs.Command.PathName
import DocComment.Proofs.Command.PathOrder
import DocComment.Proofs.Command.Spelling
import DocComment.Proofs.Command.Expansion
import DocComment.Proofs.Command.Failures
import DocComment.Proofs.Command.Arguments
import DocComment.Proofs.Param.Place
import DocComment.Proofs.Param.Children
import DocComment.Proofs.Param.History
import DocComment.Proofs.Param.Change
import DocComment.Proofs.Param.Redescription
import DocComment.Proofs.Param.Exchange
import DocComment.Proofs.Record.Repetition
import DocComment.Proofs.Param.PathText
import DocComment.Proofs.Tag.Layout
import DocComment.Proofs.Types.Arrays
import DocComment.Proofs.Types.Canonical
import DocComment.Proofs.Param.LineGrammar
import DocComment.Proofs.Tag.ThrowsGrammar
import DocComment.Proofs.Comment.Decoration
import DocComment.Proofs.Tag.Continuation
import DocComment.Proofs.Record.Malformed
import DocComment.Proofs.Comment.Blocks
import DocComment.Proofs.Comment.Paragraphs
import DocComment.Proofs.Output.Outline
import DocComment.Proofs.Command.Confinement
import DocComment.Proofs.Param.Arena
import DocComment.Proofs.Param.Access
import DocComment.Proofs.Param.Traversal
import DocComment.Proofs.Source.Slices
import DocComment.Proofs.Comment.Patterns
import DocComment.Proofs.Param.PathPattern
import DocComment.Proofs.Tag.NamePattern
