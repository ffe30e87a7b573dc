import ComponentCompiler.Buffer
import ComponentCompiler.Component.Block
import ComponentCompiler.Component.Compile
import ComponentCompiler.Component.Error
import ComponentCompiler.Component.Export
import ComponentCompiler.Component.Language
import ComponentCompiler.Component.Loader
import ComponentCompiler.Component.Options
import ComponentCompiler.Component.Rehearsal
import ComponentCompiler.Component.ScopeRegistry
import ComponentCompiler.Component.Split
import ComponentCompiler.Component.Tag
import ComponentCompiler.Component.Template
import ComponentCompiler.Component.Toolchain
import ComponentCompiler.Config
import ComponentCompiler.Job
import ComponentCompiler.Json.Number
import ComponentCompiler.Json.Printer
import ComponentCompiler.Json.Reader
import ComponentCompiler.Json.Record
import ComponentCompiler.Json.Token
import ComponentCompiler.Json.Value
import ComponentCompiler.Proofs.Buffer
import ComponentCompiler.Proofs.Buffer.Frame
import ComponentCompiler.Proofs.Buffer.Substitution
import ComponentCompiler.Proofs.Component.ByteSplit
import ComponentCompiler.Proofs.Component.Compile
import ComponentCompiler.Proofs.Component.Decomposition
import ComponentCompiler.Proofs.Component.Export
import ComponentCompiler.Proofs.Component.ExportLine
import ComponentCompiler.Proofs.Component.FanIn
import ComponentCompiler.Proofs.Component.History
import ComponentCompiler.Proofs.Component.LeadingComment
import ComponentCompiler.Proofs.Component.Literal
import ComponentCompiler.Proofs.Component.Loader
import ComponentCompiler.Proofs.Component.NestedTag
import ComponentCompiler.Proofs.Component.RenderFields
import ComponentCompiler.Proofs.Component.ScopeRegistry
import ComponentCompiler.Proofs.Component.ScriptText
import ComponentCompiler.Proofs.Component.Segment
import ComponentCompiler.Proofs.Component.Source
import ComponentCompiler.Proofs.Component.Split
import ComponentCompiler.Proofs.Component.TagText
import ComponentCompiler.Proofs.Component.Task
import ComponentCompiler.Proofs.Component.Template
import ComponentCompiler.Proofs.Job
import ComponentCompiler.Proofs.Json.Record
import ComponentCompiler.Proofs.Json.RoundTrip
import ComponentCompiler.Proofs.Registry
import ComponentCompiler.Proofs.Script.ByteSpan
import ComponentCompiler.Proofs.Style.Acceptance
import ComponentCompiler.Proofs.Style.ByteParse
import ComponentCompiler.Proofs.Style.ByteScan
import ComponentCompiler.Proofs.Style.ByteText
import ComponentCompiler.Proofs.Style.Closed
import ComponentCompiler.Proofs.Style.CommentRemoval
import ComponentCompiler.Proofs.Style.ComponentShape
import ComponentCompiler.Proofs.Style.Components
import ComponentCompiler.Proofs.Style.Concatenation
import ComponentCompiler.Proofs.Style.Descent
import ComponentCompiler.Proofs.Style.Excerpt
import ComponentCompiler.Proofs.Style.FaultPlace
import ComponentCompiler.Proofs.Style.Json
import ComponentCompiler.Proofs.Style.ParsedShape
import ComponentCompiler.Proofs.Style.Piece
import ComponentCompiler.Proofs.Style.Reading
import ComponentCompiler.Proofs.Style.Reprint
import ComponentCompiler.Proofs.Style.RoundTrip
import ComponentCompiler.Proofs.Style.Scope
import ComponentCompiler.Proofs.Style.ScopePoint
import ComponentCompiler.Proofs.Style.ScopeTree
import ComponentCompiler.Proofs.Style.Selector
import ComponentCompiler.Proofs.Style.Shape
import ComponentCompiler.Proofs.Style.Spelling
import ComponentCompiler.Proofs.Style.Watch
import ComponentCompiler.Proofs.Syntax.Arena
import ComponentCompiler.Proofs.Syntax.Completeness
import ComponentCompiler.Proofs.Syntax.Lineage
import ComponentCompiler.Proofs.Syntax.Rewrite
import ComponentCompiler.Proofs.Syntax.Trail
import ComponentCompiler.Proofs.Text.Blank
import ComponentCompiler.Proofs.Text.ByteRead
import ComponentCompiler.Proofs.Text.Insertion
import ComponentCompiler.Proofs.Text.Utf8
import ComponentCompiler.Registry
import ComponentCompiler.Script.Grammar.Class
import ComponentCompiler.Script.Grammar.Declaration
import ComponentCompiler.Script.Grammar.Expression
import ComponentCompiler.Script.Grammar.Function
import ComponentCompiler.Script.Grammar.Modifier
import ComponentCompiler.Script.Grammar.Parameter
import ComponentCompiler.Script.Grammar.Pattern
import ComponentCompiler.Script.Grammar.Statement
import ComponentCompiler.Script.Grammar.Type
import ComponentCompiler.Script.Lexer
import ComponentCompiler.Script.Node
import ComponentCompiler.Script.Outline
import ComponentCompiler.Script.Parse
import ComponentCompiler.Script.Parser
import ComponentCompiler.Script.Print
import ComponentCompiler.Script.Printer.Double
import ComponentCompiler.Script.Printer.Expression
import ComponentCompiler.Script.Printer.Function
import ComponentCompiler.Script.Printer.Layout
import ComponentCompiler.Script.Printer.Quoted
import ComponentCompiler.Script.Printer.Statement
import ComponentCompiler.Script.Token
import ComponentCompiler.Style.Error
import ComponentCompiler.Style.Json
import ComponentCompiler.Style.Piece
import ComponentCompiler.Style.Printer
import ComponentCompiler.Style.Reader
import ComponentCompiler.Style.Scope
import ComponentCompiler.Style.Selector
import ComponentCompiler.Style.Sheet
import ComponentCompiler.Syntax.Tree
import ComponentCompiler.Syntax.Walk
import ComponentCompiler.Text.Blank
import ComponentCompiler.Text.Identifier
import ComponentCompiler.Text.Offset
import ComponentCompiler.Text.Search
