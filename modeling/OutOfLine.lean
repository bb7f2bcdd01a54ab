import OutOfLine.Text
import OutOfLine.Event
import OutOfLine.LogLine
import OutOfLine.Token
import OutOfLine.Token.Lexer
import OutOfLine.Tokenizer
import OutOfLine.Parser
import OutOfLine.Production
import OutOfLine.ClassName
import OutOfLine.ClassName.Parser
import OutOfLine.Segment
import OutOfLine.Segment.Parser
import OutOfLine.Declaration
import OutOfLine.Declaration.Parser
import OutOfLine.ClassHead
import OutOfLine.ClassHead.Parser
import OutOfLine.Scope
import OutOfLine.WordSet
import OutOfLine.Definition
import OutOfLine.Document
import OutOfLine.Value
import OutOfLine.Value.Json
import OutOfLine.Toml.Reader
import OutOfLine.Toml.Quoted
import OutOfLine.Toml.Date
import OutOfLine.Toml.Number
import OutOfLine.Toml.Table
import OutOfLine.Toml.Item
import OutOfLine.Toml.SyntaxError
import OutOfLine.Toml.Document
import OutOfLine.Settings
import OutOfLine.Settings.Schema
import OutOfLine.Path
import OutOfLine.FileTree
import OutOfLine.Files
import OutOfLine.Settings.Source
import OutOfLine.CommandLine.Arguments
import OutOfLine.CommandLine.Run
import OutOfLine.CommandLine.DryRun
import OutOfLine.Main
import OutOfLine.Proofs.Lexing
import OutOfLine.Proofs.Relexing
import OutOfLine.Proofs.Cutting
import OutOfLine.Proofs.Cutting.Comment
import OutOfLine.Proofs.Cutting.Quotation
import OutOfLine.Proofs.Reading
import OutOfLine.Proofs.Reading.Loop
import OutOfLine.Proofs.Reading.Segment
import OutOfLine.Proofs.Reading.Declaration
import OutOfLine.Proofs.Reading.Ending
import OutOfLine.Proofs.Reading.Spending
import OutOfLine.Proofs.Reading.Choice
import OutOfLine.Proofs.Reading.Parameter
import OutOfLine.Proofs.Reading.ClassHead
import OutOfLine.Proofs.Reading.ClassName
import OutOfLine.Proofs.Reading.Alike
import OutOfLine.Proofs.Scan
import OutOfLine.Proofs.Scan.Innermost
import OutOfLine.Proofs.Scan.Transparency
import OutOfLine.Proofs.Denotation
import OutOfLine.Proofs.Blindness
import OutOfLine.Proofs.Definition
import OutOfLine.Proofs.Definition.Gluing
import OutOfLine.Proofs.Definition.Initialiser
import OutOfLine.Proofs.Parameters
import OutOfLine.Proofs.Parameters.Recovery
import OutOfLine.Proofs.Buffer
import OutOfLine.Proofs.Requests
import OutOfLine.Proofs.Termination
import OutOfLine.Proofs.Nesting
import OutOfLine.Proofs.Progress
import OutOfLine.Proofs.NormalForm
import OutOfLine.Proofs.Grammar
import OutOfLine.Proofs.Settings
import OutOfLine.Proofs.Document
import OutOfLine.Proofs.Document.Selection
import OutOfLine.Proofs.WrittenForm
import OutOfLine.Proofs.Reading.Base
import OutOfLine.Proofs.ClassHead
import OutOfLine.Proofs.Scan.FunctionBody
import OutOfLine.Proofs.Definition.Discarding
