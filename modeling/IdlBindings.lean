import IdlBindings.Automaton
import IdlBindings.CommandLine.Help
import IdlBindings.CommandLine.Options
import IdlBindings.CommandLine.Output
import IdlBindings.Declaration.Block
import IdlBindings.Declaration.File
import IdlBindings.Declaration.Lines
import IdlBindings.Declaration.Mapping
import IdlBindings.Declaration.Style
import IdlBindings.Declaration.TypeExpr
import IdlBindings.Diagnostic
import IdlBindings.Diagnostic.Kind
import IdlBindings.Diagnostic.Snippet
import IdlBindings.Json.Definition
import IdlBindings.Json.Model
import IdlBindings.Json.Value
import IdlBindings.Main
import IdlBindings.Markup.Fragment
import IdlBindings.Markup.Tag
import IdlBindings.Markup.Token
import IdlBindings.Model
import IdlBindings.Model.Link
import IdlBindings.Model.Merge
import IdlBindings.Model.Order
import IdlBindings.Model.Policy
import IdlBindings.Pipeline
import IdlBindings.Proofs.Automaton
import IdlBindings.Proofs.Checked.Agreement
import IdlBindings.Proofs.Checked.Definition
import IdlBindings.Proofs.Checked.Emission
import IdlBindings.Proofs.Checked.Lexer
import IdlBindings.Proofs.Checked.Link
import IdlBindings.Proofs.Checked.Literal
import IdlBindings.Proofs.Checked.Markup
import IdlBindings.Proofs.Checked.Member
import IdlBindings.Proofs.Checked.Pipeline
import IdlBindings.Proofs.Checked.Reader
import IdlBindings.Proofs.Checked.Text
import IdlBindings.Proofs.Checked.Tiling
import IdlBindings.Proofs.Checked.Type
import IdlBindings.Proofs.Declaration.Brand
import IdlBindings.Proofs.Declaration.Lines
import IdlBindings.Proofs.Declaration.Names
import IdlBindings.Proofs.Declaration.ParameterLists
import IdlBindings.Proofs.Declaration.Parameters
import IdlBindings.Proofs.Declaration.Piece
import IdlBindings.Proofs.Declaration.Placement
import IdlBindings.Proofs.Declaration.Property
import IdlBindings.Proofs.Declaration.Reader
import IdlBindings.Proofs.Declaration.Reading
import IdlBindings.Proofs.Declaration.Relabel
import IdlBindings.Proofs.Declaration.Signature
import IdlBindings.Proofs.Declaration.Stored
import IdlBindings.Proofs.Declaration.Style
import IdlBindings.Proofs.Declaration.Union
import IdlBindings.Proofs.Distinct
import IdlBindings.Proofs.Markup.Attribute
import IdlBindings.Proofs.Markup.Block
import IdlBindings.Proofs.Markup.Closing
import IdlBindings.Proofs.Markup.Cut
import IdlBindings.Proofs.Markup.Extraction
import IdlBindings.Proofs.Markup.Marked
import IdlBindings.Proofs.Markup.Segment
import IdlBindings.Proofs.Markup.Slice
import IdlBindings.Proofs.Markup.Spacing
import IdlBindings.Proofs.Markup.Tag
import IdlBindings.Proofs.Model.ClosedForm
import IdlBindings.Proofs.Model.Collisions
import IdlBindings.Proofs.Model.Content
import IdlBindings.Proofs.Model.Dependencies
import IdlBindings.Proofs.Model.DocumentOrder
import IdlBindings.Proofs.Model.Folding
import IdlBindings.Proofs.Model.Merging
import IdlBindings.Proofs.Model.Order
import IdlBindings.Proofs.Model.Overloads
import IdlBindings.Proofs.Model.Owners
import IdlBindings.Proofs.Model.Passes
import IdlBindings.Proofs.Model.Policies
import IdlBindings.Proofs.Model.References
import IdlBindings.Proofs.Model.Relabel
import IdlBindings.Proofs.Model.Relink
import IdlBindings.Proofs.Model.Reordering
import IdlBindings.Proofs.Model.Reported
import IdlBindings.Proofs.Model.WellFormed
import IdlBindings.Proofs.Pipeline.Declared
import IdlBindings.Proofs.Pipeline.Failing
import IdlBindings.Proofs.Pipeline.Idempotence
import IdlBindings.Proofs.Pipeline.Identifiers
import IdlBindings.Proofs.Pipeline.ParameterNames
import IdlBindings.Proofs.Pipeline.References
import IdlBindings.Proofs.Pipeline.Stage
import IdlBindings.Proofs.Pipeline.Texts
import IdlBindings.Proofs.Span
import IdlBindings.Proofs.Syntax.Definition.Parsed
import IdlBindings.Proofs.Syntax.Definition.Passing
import IdlBindings.Proofs.Syntax.Definition.Reading
import IdlBindings.Proofs.Syntax.Extent
import IdlBindings.Proofs.Syntax.Following
import IdlBindings.Proofs.Syntax.Glyphs
import IdlBindings.Proofs.Syntax.Member.Parsed
import IdlBindings.Proofs.Syntax.Member.Passing
import IdlBindings.Proofs.Syntax.Member.Reading
import IdlBindings.Proofs.Syntax.Moving
import IdlBindings.Proofs.Syntax.Numeral
import IdlBindings.Proofs.Syntax.Owners
import IdlBindings.Proofs.Syntax.Phrase
import IdlBindings.Proofs.Syntax.Progress
import IdlBindings.Proofs.Syntax.Readable
import IdlBindings.Proofs.Syntax.Relabel
import IdlBindings.Proofs.Syntax.RoundTrip
import IdlBindings.Proofs.Syntax.Slots
import IdlBindings.Proofs.Syntax.Spelling
import IdlBindings.Proofs.Syntax.Splitting
import IdlBindings.Proofs.Syntax.TokensKept
import IdlBindings.Proofs.Syntax.TokensOnly
import IdlBindings.Proofs.Syntax.Type.Parsed
import IdlBindings.Proofs.Syntax.Type.Passing
import IdlBindings.Proofs.Syntax.Type.Reading
import IdlBindings.Proofs.Text.Identifier
import IdlBindings.Proofs.Text.Key
import IdlBindings.Proofs.Text.StringLiteral
import IdlBindings.Proofs.Token.Following
import IdlBindings.Proofs.Token.Glyph
import IdlBindings.Proofs.Token.Lexed
import IdlBindings.Proofs.Token.Moving
import IdlBindings.Proofs.Token.Passing
import IdlBindings.Proofs.Token.Place
import IdlBindings.Proofs.Token.Progress
import IdlBindings.Proofs.Token.Slot
import IdlBindings.Proofs.Token.Spelling
import IdlBindings.Proofs.Token.Splitting
import IdlBindings.Proofs.Token.Taking
import IdlBindings.Proofs.Token.Valid
import IdlBindings.Span
import IdlBindings.Syntax.Definition
import IdlBindings.Syntax.Definition.Parser
import IdlBindings.Syntax.Literal
import IdlBindings.Syntax.Literal.Parser
import IdlBindings.Syntax.Member
import IdlBindings.Syntax.Member.Parser
import IdlBindings.Syntax.Primitive
import IdlBindings.Syntax.Type
import IdlBindings.Syntax.Type.Parser
import IdlBindings.Text.Blank
import IdlBindings.Text.Lines
import IdlBindings.Text.Name
import IdlBindings.Token
import IdlBindings.Token.Cursor
import IdlBindings.Token.Lexer
