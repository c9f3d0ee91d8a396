import LexScope.Binding.Basic
import LexScope.Binding.CachedTable
import LexScope.Binding.Collect
import LexScope.Binding.Definition
import LexScope.Binding.Doc
import LexScope.Binding.Entry
import LexScope.Binding.Head
import LexScope.Binding.LambdaList
import LexScope.Binding.LocalFunction
import LexScope.Binding.Loop
import LexScope.Binding.Resolution
import LexScope.Binding.Table
import LexScope.Binding.Variable
import LexScope.Command
import LexScope.Document.Analysis
import LexScope.Document.CallGraph
import LexScope.Document.Completion
import LexScope.Document.Highlight
import LexScope.Document.Listing
import LexScope.Document.Navigation
import LexScope.Document.Outline
import LexScope.Error
import LexScope.Form.Atom
import LexScope.Form.Bracket
import LexScope.Form.Element
import LexScope.Form.Layout
import LexScope.Form.Lexeme
import LexScope.Form.Node
import LexScope.Form.Symbol
import LexScope.Json
import LexScope.Json.Text
import LexScope.Main
import LexScope.Mode
import LexScope.Proofs.Binding.Bounds
import LexScope.Proofs.Binding.Callables
import LexScope.Proofs.Binding.Copy
import LexScope.Proofs.Binding.Documentation
import LexScope.Proofs.Binding.Heads
import LexScope.Proofs.Binding.InsertionLog
import LexScope.Proofs.Binding.LambdaGrammar
import LexScope.Proofs.Binding.Lookup
import LexScope.Proofs.Binding.LoopGrammar
import LexScope.Proofs.Binding.NameMap
import LexScope.Proofs.Binding.ParameterOrder
import LexScope.Proofs.Binding.Parameters
import LexScope.Proofs.Binding.Regular
import LexScope.Proofs.Binding.Shift
import LexScope.Proofs.Binding.Siblings
import LexScope.Proofs.Binding.Sites
import LexScope.Proofs.Binding.SmallWords
import LexScope.Proofs.Binding.StepForms
import LexScope.Proofs.Core.Collect
import LexScope.Proofs.Core.Resolution
import LexScope.Proofs.Core.Scopes
import LexScope.Proofs.Core.Simulation
import LexScope.Proofs.Core.Symbols
import LexScope.Proofs.Core.Syntax
import LexScope.Proofs.Core.Words
import LexScope.Proofs.Document.CallGraph
import LexScope.Proofs.Document.Completion
import LexScope.Proofs.Document.Cursor
import LexScope.Proofs.Document.Highlight
import LexScope.Proofs.Document.HighlightModes
import LexScope.Proofs.Document.Invariance
import LexScope.Proofs.Document.Navigation
import LexScope.Proofs.Document.Outline
import LexScope.Proofs.Document.Ranges
import LexScope.Proofs.Document.Resolver
import LexScope.Proofs.Document.Typing
import LexScope.Proofs.Form.Agreement
import LexScope.Proofs.Form.Atoms
import LexScope.Proofs.Form.Case
import LexScope.Proofs.Form.Children
import LexScope.Proofs.Form.Copy
import LexScope.Proofs.Form.Datum
import LexScope.Proofs.Form.Exclusion
import LexScope.Proofs.Form.Extension
import LexScope.Proofs.Form.Layout
import LexScope.Proofs.Form.Lexeme
import LexScope.Proofs.Form.Literals
import LexScope.Proofs.Form.Markers
import LexScope.Proofs.Form.Nesting
import LexScope.Proofs.Form.Overlap
import LexScope.Proofs.Form.Pairing
import LexScope.Proofs.Form.Pieces
import LexScope.Proofs.Form.Printed
import LexScope.Proofs.Form.Reading
import LexScope.Proofs.Form.RoundTrip
import LexScope.Proofs.Form.Seams
import LexScope.Proofs.Form.Separation
import LexScope.Proofs.Form.Sexp
import LexScope.Proofs.Form.SexpDocument
import LexScope.Proofs.Form.Shift
import LexScope.Proofs.Form.Surroundings
import LexScope.Proofs.Form.Trees
import LexScope.Proofs.Form.Words
import LexScope.Proofs.Server.CallItems
import LexScope.Proofs.Server.Interleaving
import LexScope.Proofs.Span.Algebra
import LexScope.Proofs.Span.Membership
import LexScope.Proofs.Span.Shift
import LexScope.Proofs.Text.Boundary
import LexScope.Proofs.Text.Case
import LexScope.Proofs.Text.Columns
import LexScope.Proofs.Text.Decoding
import LexScope.Proofs.Text.Places
import LexScope.Server.Configuration
import LexScope.Server.Envelope
import LexScope.Server.Handshake
import LexScope.Server.Parameters
import LexScope.Server.Protocol
import LexScope.Server.Query
import LexScope.Server.Session
import LexScope.Server.Shape
import LexScope.Server.Workspace
import LexScope.Span.Basic
import LexScope.Span.Set
import LexScope.Text.Blank
import LexScope.Text.Byte
import LexScope.Text.CaseMap
import LexScope.Text.CaseTable
import LexScope.Text.Hex
import LexScope.Text.Lines
import LexScope.Text.Split
import LexScope.Text.Utf8
import LexScope.Uri.Address
import LexScope.Uri.Basic
import LexScope.Uri.Host
import LexScope.Uri.Path
import LexScope.Uri.Percent
import LexScope.Uri.Punycode
import LexScope.Uri.Reader
