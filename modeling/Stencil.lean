import Stencil.Argument
import Stencil.Bytes
import Stencil.Chunk
import Stencil.Code.Expr
import Stencil.Code.Identifier
import Stencil.Code.Meaning
import Stencil.Code.Printer
import Stencil.Code.Source
import Stencil.Command.Flags
import Stencil.Command.Run
import Stencil.Command.Selection
import Stencil.Compile
import Stencil.Datum
import Stencil.Diagnostic
import Stencil.Digest
import Stencil.Document
import Stencil.Engine
import Stencil.Fault
import Stencil.File.Generated
import Stencil.File.Name
import Stencil.File.Pattern
import Stencil.File.Tree
import Stencil.Fragment
import Stencil.Helper
import Stencil.Main
import Stencil.Markup.Event
import Stencil.Markup.RawText
import Stencil.Markup.Tag
import Stencil.Markup.Token
import Stencil.Node
import Stencil.Number.Binary64
import Stencil.Number.Fraction
import Stencil.Number.Numeral
import Stencil.Number.Shortest
import Stencil.Number.Written
import Stencil.Path
import Stencil.Playground
import Stencil.Program
import Stencil.Proofs.Checks
import Stencil.Proofs.Chunk
import Stencil.Proofs.Command.Generation
import Stencil.Proofs.Command.Independence
import Stencil.Proofs.Command.Selection
import Stencil.Proofs.Compile.Encoding
import Stencil.Proofs.Compile.Forest
import Stencil.Proofs.Compile.Grammar
import Stencil.Proofs.Compile.Matching
import Stencil.Proofs.Compile.Placement
import Stencil.Proofs.Compile.Thinning
import Stencil.Proofs.Compile.Translation
import Stencil.Proofs.Compile.Void
import Stencil.Proofs.Engine.Loading
import Stencil.Proofs.Engine.RoundTrip
import Stencil.Proofs.Engine.Session
import Stencil.Proofs.Engine.Whitespace
import Stencil.Proofs.Fields
import Stencil.Proofs.File.Name
import Stencil.Proofs.File.Place
import Stencil.Proofs.Markup.Encoding
import Stencil.Proofs.Markup.Tiling
import Stencil.Proofs.Markup.Written
import Stencil.Proofs.Offset.Access
import Stencil.Proofs.Offset.Argument
import Stencil.Proofs.Offset.Compile
import Stencil.Proofs.Offset.Fragment
import Stencil.Proofs.Offset.Mark
import Stencil.Proofs.Offset.Path
import Stencil.Proofs.Offset.Tree
import Stencil.Proofs.Playground.Change
import Stencil.Proofs.Render.Agreement
import Stencil.Proofs.Render.Bound
import Stencil.Proofs.Render.Congruence
import Stencil.Proofs.Render.Content
import Stencil.Proofs.Render.Contexts
import Stencil.Proofs.Render.Contract
import Stencil.Proofs.Render.Discipline
import Stencil.Proofs.Render.Encoding
import Stencil.Proofs.Render.Evaluation
import Stencil.Proofs.Render.Failure
import Stencil.Proofs.Render.Injection
import Stencil.Proofs.Render.Linking
import Stencil.Proofs.Render.Lockstep
import Stencil.Proofs.Render.Nesting
import Stencil.Proofs.Render.Order
import Stencil.Proofs.Render.Preservation
import Stencil.Proofs.Render.Reach
import Stencil.Proofs.Render.Thinning
import Stencil.Proofs.Sorted
import Stencil.Proofs.Text.Blank
import Stencil.Proofs.Text.Escape
import Stencil.Proofs.Text.Ink
import Stencil.Proofs.Text.Reference
import Stencil.Proofs.Text.Utf8
import Stencil.Render
import Stencil.Scope
import Stencil.Span
import Stencil.Store
import Stencil.Text.Blank
import Stencil.Text.CodeRange
import Stencil.Text.Entity
import Stencil.Text.EntityTable
import Stencil.Text.Escape
import Stencil.Text.Glyph
import Stencil.Text.Letter
import Stencil.Text.Printable
import Stencil.Text.Quoted
import Stencil.Text.Uppercase
import Stencil.Tree
import Stencil.Value
import Stencil.Proofs.Path.Meaning
import Stencil.Proofs.Tree.Writing
import Stencil.Proofs.Chunk.Factorisation
import Stencil.Proofs.Fragment.Segmentation
import Stencil.Proofs.Number.Decimal
import Stencil.Proofs.Text.Quoted
import Stencil.Proofs.Argument.Tokens
import Stencil.Proofs.Argument.Spelling
import Stencil.Proofs.Render.Parameters
import Stencil.Proofs.Number.Fraction
import Stencil.Proofs.Number.Shortest
import Stencil.Proofs.Code.Literal
import Stencil.Proofs.Text.White
import Stencil.Proofs.Chunk.Exchange
import Stencil.Proofs.Tree.Compaction
import Stencil.Proofs.Compile.Bytewise
import Stencil.Proofs.Render.Bytewise
import Stencil.Proofs.Tree.Comment
import Stencil.Proofs.Render.Comment
import Stencil.Proofs.Text.Ampersand
import Stencil.Proofs.Path.Reading
import Stencil.Proofs.Tree.RawForms
import Stencil.Proofs.Path.Grammar
import Stencil.Proofs.Value.Merge
import Stencil.Proofs.Render.History
import Stencil.Proofs.Render.Iteration
import Stencil.Proofs.Engine.RawText
import Stencil.Proofs.Argument.Reading
import Stencil.Proofs.Diagnostic
import Stencil.Proofs.File.Regeneration
import Stencil.Proofs.Store
import Stencil.Proofs.Playground.Persistence
import Stencil.Proofs.Path.Written
import Stencil.Proofs.Value.Arguments
import Stencil.Proofs.Command.Union
import Stencil.Proofs.Code.FunctionName
