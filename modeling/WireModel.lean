import WireModel.Codec.Constructors
import WireModel.Codec.Plan
import WireModel.Codec.Strategy
import WireModel.CommandLine.Arguments
import WireModel.CommandLine.Files
import WireModel.CommandLine.Flags
import WireModel.CommandLine.Run
import WireModel.CommandLine.Suggestion
import WireModel.Compile
import WireModel.Description
import WireModel.Diagnostic
import WireModel.Document.Basic
import WireModel.Document.Conformance
import WireModel.Document.Decode
import WireModel.Emission.Log
import WireModel.Emission.Snippet
import WireModel.Emission.Target
import WireModel.Failure
import WireModel.FieldType.Basic
import WireModel.FieldType.Parser
import WireModel.Json.Basic
import WireModel.Json.Parser
import WireModel.Json.Printer
import WireModel.Json.Token
import WireModel.Main
import WireModel.Model.Constructor
import WireModel.Model.Declaration
import WireModel.Model.Hierarchy
import WireModel.Model.Interfaces
import WireModel.Model.Load
import WireModel.Model.Outline
import WireModel.Model.Problem
import WireModel.Model.References
import WireModel.Model.Table
import WireModel.Name
import WireModel.Number.Binary64
import WireModel.Number.Shortest
import WireModel.Options
import WireModel.Proofs.Acceptance
import WireModel.Proofs.Anchors
import WireModel.Proofs.Base64
import WireModel.Proofs.BindingNames
import WireModel.Proofs.Closure
import WireModel.Proofs.CodeSpans
import WireModel.Proofs.Colors
import WireModel.Proofs.CommandLine.Arguments
import WireModel.Proofs.CommandLine.Prediction
import WireModel.Proofs.CommandLine.Stages
import WireModel.Proofs.CommandLine.Writing
import WireModel.Proofs.Constructors
import WireModel.Proofs.Containment
import WireModel.Proofs.ControlSequences
import WireModel.Proofs.Cycles
import WireModel.Proofs.Declarations
import WireModel.Proofs.Declared
import WireModel.Proofs.Decoding
import WireModel.Proofs.Defaults
import WireModel.Proofs.Definitions
import WireModel.Proofs.Descendants
import WireModel.Proofs.DocumentedDefaults
import WireModel.Proofs.Expressions
import WireModel.Proofs.Extension
import WireModel.Proofs.Faultless
import WireModel.Proofs.Forms
import WireModel.Proofs.FreeText
import WireModel.Proofs.Hierarchy.Listing
import WireModel.Proofs.Hierarchy.Order
import WireModel.Proofs.Hierarchy.Walk
import WireModel.Proofs.Identifier
import WireModel.Proofs.Inclusion
import WireModel.Proofs.Indentation
import WireModel.Proofs.Initialization
import WireModel.Proofs.Integers
import WireModel.Proofs.Layout
import WireModel.Proofs.LineFeeds
import WireModel.Proofs.LineStructure
import WireModel.Proofs.Linearization
import WireModel.Proofs.Links
import WireModel.Proofs.Literals
import WireModel.Proofs.Loading
import WireModel.Proofs.Logging
import WireModel.Proofs.Markup
import WireModel.Proofs.MemberNames
import WireModel.Proofs.Members
import WireModel.Proofs.Mentions
import WireModel.Proofs.NamedTypes
import WireModel.Proofs.Number.Rounding
import WireModel.Proofs.Number.Shortest
import WireModel.Proofs.Number.Text
import WireModel.Proofs.Numerals
import WireModel.Proofs.Paragraphs
import WireModel.Proofs.Paths
import WireModel.Proofs.Planning
import WireModel.Proofs.Properties
import WireModel.Proofs.References
import WireModel.Proofs.Rendering
import WireModel.Proofs.Reordering
import WireModel.Proofs.Reports
import WireModel.Proofs.Resolution
import WireModel.Proofs.RoutineNames
import WireModel.Proofs.RowKeys
import WireModel.Proofs.SchemaReferences
import WireModel.Proofs.Scope
import WireModel.Proofs.Separated
import WireModel.Proofs.Sequence
import WireModel.Proofs.Skeleton
import WireModel.Proofs.Slots
import WireModel.Proofs.SnippetReports
import WireModel.Proofs.Spelling
import WireModel.Proofs.Stripping
import WireModel.Proofs.Subjects
import WireModel.Proofs.TableCells
import WireModel.Proofs.Tables
import WireModel.Proofs.Tokens
import WireModel.Proofs.TypeGrammar
import WireModel.Proofs.TypeLists
import WireModel.Proofs.TypeNames
import WireModel.Proofs.TypeTexts
import WireModel.Proofs.WireKeys
import WireModel.Proofs.Wrapping
import WireModel.Reference.Build
import WireModel.Reference.Html
import WireModel.Reference.Markdown
import WireModel.Reference.Tree
import WireModel.Schema.Definition
import WireModel.Sequence
import WireModel.Terminal.Style
import WireModel.Terminal.View
import WireModel.Text.Blank
import WireModel.Text.Case
import WireModel.Text.Comment
import WireModel.Text.Distance
import WireModel.Text.Lines
import WireModel.Text.Quoted
import WireModel.Text.Units
import WireModel.TypeScript.Codec
import WireModel.TypeScript.Doc
import WireModel.TypeScript.Name
import WireModel.TypeScript.ParseRows
import WireModel.TypeScript.Row
import WireModel.TypeScript.TypeExpr
import WireModel.TypeScript.TypesModule
import WireModel.TypeScript.WriteRows
import WireModel.Wire.Base64
import WireModel.Wire.ErrorPath
import WireModel.Wire.Primitive
