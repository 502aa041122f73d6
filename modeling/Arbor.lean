import Arbor.Command.Flag
import Arbor.Command.Line
import Arbor.Command.Run
import Arbor.Command.Suggestion
import Arbor.Cursor
import Arbor.Editor.Diagnostic
import Arbor.Editor.Documents
import Arbor.Editor.Hover
import Arbor.Editor.Range
import Arbor.Editor.Selection
import Arbor.Editor.Session
import Arbor.Fault
import Arbor.Files
import Arbor.Grammar
import Arbor.Grammar.Expr
import Arbor.Grammar.Glyph
import Arbor.Grammar.Lexeme
import Arbor.Grammar.Opened
import Arbor.Grammar.Reader
import Arbor.Grammar.Verify
import Arbor.Json
import Arbor.Main
import Arbor.Node
import Arbor.Node.Export
import Arbor.Node.Path
import Arbor.Node.Query
import Arbor.Node.Walk
import Arbor.Parser
import Arbor.Parser.Run
import Arbor.Parser.State
import Arbor.Parser.SyntaxError
import Arbor.Path
import Arbor.Position
import Arbor.Project
import Arbor.Proofs.Parser.Evaluation
import Arbor.Reach
import Arbor.Rule
import Arbor.Settings
import Arbor.Text
import Arbor.Text.CharClass
import Arbor.Text.Digit
import Arbor.Text.Letter
import Arbor.Text.Lower
import Arbor.Text.Piece
import Arbor.Text.Printable
import Arbor.Text.Quoted
import Arbor.Token
import Arbor.Token.Munch
import Arbor.Token.Nullable
import Arbor.Token.Tokenizer
import Arbor.Toml.Document
import Arbor.Toml.Quotation
import Arbor.Toml.Reader
import Arbor.Toml.Scalar
import Arbor.Toml.Statement
import Arbor.Uri
import Arbor.Uri.Address
import Arbor.Proofs.Parser.Frontier
import Arbor.Proofs.Node.Walk
import Arbor.Proofs.Parser.Derivation
import Arbor.Proofs.Parser.Lockstep
import Arbor.Proofs.Text.Piece
import Arbor.Proofs.Text.Quoted
import Arbor.Proofs.Parser.Blame
import Arbor.Proofs.Grammar.LeftRecursion
import Arbor.Proofs.Parser.Descent
import Arbor.Proofs.Token.Asking
import Arbor.Proofs.Token.Language
import Arbor.Proofs.Token.Evaluation
import Arbor.Proofs.Token.Soundness
import Arbor.Proofs.Token.Scan
import Arbor.Proofs.Token.Refinement
import Arbor.Proofs.Text.Position
import Arbor.Proofs.Token.Lossless
import Arbor.Proofs.Parser.Layout
import Arbor.Proofs.Parser.Geometry
import Arbor.Proofs.Reach
import Arbor.Proofs.Grammar.Hierarchy
import Arbor.Proofs.Parser.Rules
import Arbor.Proofs.Parser.Categories
import Arbor.Proofs.Node.Route
import Arbor.Proofs.Node.Path
import Arbor.Proofs.Parser.Numbering
import Arbor.Proofs.Text.Cursor
import Arbor.Proofs.Editor.Lookup
import Arbor.Proofs.Editor.Marking
import Arbor.Proofs.Grammar.Nesting
import Arbor.Proofs.Parser.Termination
import Arbor.Proofs.Parser.Tightness
import Arbor.Proofs.Token.Recursion
import Arbor.Proofs.Token.Termination
import Arbor.Proofs.Parser.Distinct
import Arbor.Proofs.Grammar.Reordering
import Arbor.Proofs.Parser.Reordering
import Arbor.Proofs.Grammar.Verification
import Arbor.Proofs.Editor.History
import Arbor.Proofs.Editor.Nesting
import Arbor.Proofs.Token.Resumption
import Arbor.Proofs.Token.Sharing
import Arbor.Proofs.Parser.Ranges
import Arbor.Proofs.Node.Ancestor
import Arbor.Proofs.Token.Offsets
import Arbor.Proofs.Node.Search
import Arbor.Proofs.Text.Decimal
import Arbor.Proofs.Text.Ordinal
import Arbor.Proofs.Json
import Arbor.Proofs.Node.Export
import Arbor.Proofs.Node.Outline
import Arbor.Proofs.Path
import Arbor.Proofs.Settings.Search
