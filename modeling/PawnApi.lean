import PawnApi.Arguments
import PawnApi.Declaration.Classify
import PawnApi.Declaration.Function
import PawnApi.Declaration.Methodmap
import PawnApi.Disk.Basic
import PawnApi.Disk.Fault
import PawnApi.Disk.Files
import PawnApi.Disk.Lookup
import PawnApi.Disk.Walk
import PawnApi.Doc.Block
import PawnApi.Doc.Comment
import PawnApi.Entry.Basic
import PawnApi.Entry.Json
import PawnApi.Include
import PawnApi.Json.Value
import PawnApi.Lint
import PawnApi.Main
import PawnApi.Manifest.Basic
import PawnApi.Manifest.Pattern
import PawnApi.Manifest.Reader
import PawnApi.Notice
import PawnApi.Param.Basic
import PawnApi.Param.Pieces
import PawnApi.Param.Reader
import PawnApi.Path
import PawnApi.Scan.Collection
import PawnApi.Scan.Discovery
import PawnApi.Scan.Failure
import PawnApi.Scan.Host
import PawnApi.Scan.Run
import PawnApi.Source.Gap
import PawnApi.Source.Group
import PawnApi.Source.Outline
import PawnApi.Source.Token
import PawnApi.Text.Alphanumeric
import PawnApi.Text.Blank
import PawnApi.Text.Lines
import PawnApi.Text.Utf8
import PawnApi.Yaml.Cursor
import PawnApi.Yaml.Layout
import PawnApi.Yaml.Node
import PawnApi.Yaml.Scalar
import PawnApi.Yaml.Token
import PawnApi.Proofs.Scan
import PawnApi.Proofs.Seam
import PawnApi.Proofs.Lexical
import PawnApi.Proofs.Concatenation
import PawnApi.Proofs.Provenance
import PawnApi.Proofs.Frames
import PawnApi.Proofs.Bodies
import PawnApi.Proofs.Print
import PawnApi.Proofs.Parameters
import PawnApi.Proofs.Declarations
import PawnApi.Proofs.Decoration
import PawnApi.Proofs.Documentation
import PawnApi.Proofs.RoundTrip
import PawnApi.Proofs.Spans
import PawnApi.Proofs.Pieces
import PawnApi.Proofs.ParamPhrases
import PawnApi.Proofs.Agreement
import PawnApi.Proofs.Grammar
import PawnApi.Proofs.Nesting
import PawnApi.Proofs.JsonReader
import PawnApi.Proofs.Inventory
import PawnApi.Proofs.Delivery
import PawnApi.Proofs.Effects
import PawnApi.Proofs.Recasting
import PawnApi.Proofs.TypeReaders
import PawnApi.Proofs.Respacing
import PawnApi.Proofs.Quotation
import PawnApi.Proofs.InlineComments
import PawnApi.Proofs.LintReport
import PawnApi.Proofs.Patterns
import PawnApi.Proofs.Walks
import PawnApi.Proofs.Selection
import PawnApi.Proofs.Bytewise.Basic
import PawnApi.Proofs.Bytewise.Lexer
import PawnApi.Proofs.Bytewise.Blocks
import PawnApi.Proofs.Bytewise.Cursor
import PawnApi.Proofs.Bytewise.TextCursor
import PawnApi.Proofs.Bytewise.Params
import PawnApi.Proofs.Bytewise.Headers
import PawnApi.Proofs.Bytewise.Members
import PawnApi.Proofs.Bytewise.Declarations
import PawnApi.Proofs.Bytewise.Comments
import PawnApi.Proofs.Bytewise.Include
import PawnApi.Proofs.Bytewise.Progress
