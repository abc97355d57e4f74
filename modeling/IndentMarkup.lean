import IndentMarkup.Arguments
import IndentMarkup.Command
import IndentMarkup.Context.Json
import IndentMarkup.Context.Number
import IndentMarkup.Expr.Basic
import IndentMarkup.Expr.Engine
import IndentMarkup.Expr.Error
import IndentMarkup.Expr.Lexer
import IndentMarkup.Expr.Parser
import IndentMarkup.Expr.Reading
import IndentMarkup.Expr.Token
import IndentMarkup.Html
import IndentMarkup.Keyed
import IndentMarkup.Line.Basic
import IndentMarkup.Line.Directive
import IndentMarkup.Line.Insertion
import IndentMarkup.Line.Nesting
import IndentMarkup.Lookup
import IndentMarkup.Main
import IndentMarkup.Markup.Attribute
import IndentMarkup.Markup.Decision
import IndentMarkup.Markup.Element
import IndentMarkup.Markup.Listing
import IndentMarkup.Markup.Node
import IndentMarkup.Markup.Outline
import IndentMarkup.Number.Binary
import IndentMarkup.Number.Layout
import IndentMarkup.Number.Power
import IndentMarkup.Number.Reading
import IndentMarkup.Number.Shortest
import IndentMarkup.Pipeline
import IndentMarkup.Program
import IndentMarkup.Proofs.Attribute.Containment
import IndentMarkup.Proofs.Attribute.Joining
import IndentMarkup.Proofs.Attribute.Unification
import IndentMarkup.Proofs.Decision.Expansion
import IndentMarkup.Proofs.Decision.Folded
import IndentMarkup.Proofs.Decision.Form
import IndentMarkup.Proofs.Decision.Levels
import IndentMarkup.Proofs.Decision.Runs
import IndentMarkup.Proofs.Decision.Walk
import IndentMarkup.Proofs.Expr.Bracketing
import IndentMarkup.Proofs.Expr.Completeness
import IndentMarkup.Proofs.Expr.Composition
import IndentMarkup.Proofs.Expr.Failures
import IndentMarkup.Proofs.Expr.Faults
import IndentMarkup.Proofs.Expr.Foresight
import IndentMarkup.Proofs.Expr.FreeNames
import IndentMarkup.Proofs.Expr.Grammar
import IndentMarkup.Proofs.Expr.Lexemes
import IndentMarkup.Proofs.Expr.Longest
import IndentMarkup.Proofs.Expr.Parentheses
import IndentMarkup.Proofs.Expr.Partition
import IndentMarkup.Proofs.Expr.Quoting
import IndentMarkup.Proofs.Expr.Separation
import IndentMarkup.Proofs.Expr.Soundness
import IndentMarkup.Proofs.Expr.Spelling
import IndentMarkup.Proofs.Expr.Steps
import IndentMarkup.Proofs.Expr.Words
import IndentMarkup.Proofs.Html.Balance
import IndentMarkup.Proofs.Html.Escaping
import IndentMarkup.Proofs.Html.Groups
import IndentMarkup.Proofs.Line.Attributes
import IndentMarkup.Proofs.Line.Blocks
import IndentMarkup.Proofs.Line.Characters
import IndentMarkup.Proofs.Line.Enclosure
import IndentMarkup.Proofs.Line.Grammar
import IndentMarkup.Proofs.Line.Insertions
import IndentMarkup.Proofs.Line.Nesting
import IndentMarkup.Proofs.Line.Segments
import IndentMarkup.Proofs.Line.Unbroken
import IndentMarkup.Proofs.Outline.Bodies
import IndentMarkup.Proofs.Outline.Composition
import IndentMarkup.Proofs.Outline.Content
import IndentMarkup.Proofs.Outline.Continuations
import IndentMarkup.Proofs.Outline.Forest
import IndentMarkup.Proofs.Outline.Form
import IndentMarkup.Proofs.Outline.Heads
import IndentMarkup.Proofs.Outline.Lines
import IndentMarkup.Proofs.Outline.Names
import IndentMarkup.Proofs.Outline.Spacing
import IndentMarkup.Proofs.Program.Depth
import IndentMarkup.Proofs.Program.Evaluation
import IndentMarkup.Proofs.Program.FreeNames
import IndentMarkup.Proofs.Program.Generation
import IndentMarkup.Proofs.Program.Translation
import IndentMarkup.Proofs.Source.Attributes
import IndentMarkup.Proofs.Source.Blocks
import IndentMarkup.Proofs.Source.Directives
import IndentMarkup.Proofs.Source.Forms
import IndentMarkup.Proofs.Source.Printing
import IndentMarkup.Proofs.Source.RoundTrip
import IndentMarkup.Proofs.Source.Trimming
import IndentMarkup.Proofs.Template.Classes
import IndentMarkup.Proofs.Template.Composition
import IndentMarkup.Proofs.Value.Comparison
import IndentMarkup.Reading
import IndentMarkup.Render
import IndentMarkup.Session
import IndentMarkup.Settings
import IndentMarkup.Settings.Layer
import IndentMarkup.Settings.Toml.Document
import IndentMarkup.Settings.Toml.Scalar
import IndentMarkup.Settings.Toml.Table
import IndentMarkup.Settings.Toml.Text
import IndentMarkup.Settings.Value
import IndentMarkup.Template
import IndentMarkup.Text.Blank
import IndentMarkup.Text.Hex
import IndentMarkup.Text.Identifier
import IndentMarkup.Text.Quoted
import IndentMarkup.Text.Split
import IndentMarkup.Text.Start
import IndentMarkup.Text.Visible
import IndentMarkup.Text.Word
import IndentMarkup.Value.Attribute
import IndentMarkup.Value.Basic
import IndentMarkup.Value.Comparison
import IndentMarkup.Value.Conversion
import IndentMarkup.Value.Scope
