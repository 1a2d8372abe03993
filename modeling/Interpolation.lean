import Interpolation.Command.Basic
import Interpolation.Command.Execution
import Interpolation.Command.Manual
import Interpolation.Command.Reading
import Interpolation.Command.Report
import Interpolation.Command.Session
import Interpolation.Command.Usage
import Interpolation.Decimal.Binary64
import Interpolation.Decimal.Decimal
import Interpolation.Decimal.Layout
import Interpolation.Decimal.Shortest
import Interpolation.Document.Basic
import Interpolation.Document.Pointer
import Interpolation.Expression.Basic
import Interpolation.Expression.Cursor
import Interpolation.Expression.Error
import Interpolation.Expression.Evaluation
import Interpolation.Expression.Grammar
import Interpolation.Expression.Lexeme
import Interpolation.Expression.Names
import Interpolation.Expression.Token
import Interpolation.Expression.Tree
import Interpolation.Expression.Value
import Interpolation.Main
import Interpolation.Manifest.Entry
import Interpolation.Manifest.Failure
import Interpolation.Manifest.Resolver
import Interpolation.Proofs.Command.Printing
import Interpolation.Proofs.Document.Addressing
import Interpolation.Proofs.Document.Place
import Interpolation.Proofs.Document.Pointer
import Interpolation.Proofs.Document.Sameness
import Interpolation.Proofs.Document.Unsigned
import Interpolation.Proofs.Document.WellFormed
import Interpolation.Proofs.Expression.Completion
import Interpolation.Proofs.Expression.Dependence
import Interpolation.Proofs.Expression.Discovery
import Interpolation.Proofs.Expression.Fault
import Interpolation.Proofs.Expression.Grammar
import Interpolation.Proofs.Expression.Height
import Interpolation.Proofs.Expression.Levels
import Interpolation.Proofs.Expression.Lexing
import Interpolation.Proofs.Expression.Moving
import Interpolation.Proofs.Expression.Origin
import Interpolation.Proofs.Expression.Regrouping
import Interpolation.Proofs.Expression.Scanning
import Interpolation.Proofs.Expression.Spelling
import Interpolation.Proofs.Expression.Writing
import Interpolation.Proofs.Manifest.Dependence
import Interpolation.Proofs.Manifest.Entry
import Interpolation.Proofs.Manifest.Extension
import Interpolation.Proofs.Manifest.Listing
import Interpolation.Proofs.Manifest.Names
import Interpolation.Proofs.Manifest.Policy
import Interpolation.Proofs.Manifest.Reordering
import Interpolation.Proofs.Manifest.Rewriting
import Interpolation.Proofs.Manifest.Slot
import Interpolation.Proofs.Manifest.Validation
import Interpolation.Proofs.Manifest.Walk
import Interpolation.Proofs.Template.Cutting
import Interpolation.Proofs.Template.Malformed
import Interpolation.Proofs.Template.Moving
import Interpolation.Proofs.Template.Rendering
import Interpolation.Proofs.Template.Source
import Interpolation.Settings.Basic
import Interpolation.Settings.Reading
import Interpolation.Template.Basic
import Interpolation.Template.Piece
import Interpolation.Template.Rendering
import Interpolation.Text.Basic
import Interpolation.Toml.Table
import Interpolation.Toml.Text
import Interpolation.Yaml.Block
import Interpolation.Yaml.Character
import Interpolation.Yaml.Flow
import Interpolation.Yaml.Folding
import Interpolation.Yaml.Lexing
import Interpolation.Yaml.Loading
import Interpolation.Yaml.Name
import Interpolation.Yaml.Node
import Interpolation.Yaml.Scalar
import Interpolation.Yaml.Style
import Interpolation.Yaml.Token
import Interpolation.Yaml.Writing
import Interpolation.Proofs.Expression.Tokenization
import Interpolation.Proofs.Template.Quoting
import Interpolation.Proofs.Manifest.Stability
import Interpolation.Proofs.Expression.Bytewise
import Interpolation.Proofs.Expression.Climbing
import Interpolation.Proofs.Expression.Agreement
import Interpolation.Proofs.Expression.Calls
import Interpolation.Proofs.Manifest.Occurrences
import Interpolation.Proofs.Expression.Forward
import Interpolation.Proofs.Expression.Attempts
import Interpolation.Proofs.Expression.Progress
import Interpolation.Proofs.Document.Loading
