import GraphQL.Grammar.Cursor
import GraphQL.Grammar.Definition
import GraphQL.Grammar.Selection
import GraphQL.Grammar.Value
import GraphQL.Graph.Cycle
import GraphQL.Graph.Reach
import GraphQL.Introspection.Build
import GraphQL.Introspection.Describe
import GraphQL.Introspection.Record
import GraphQL.Introspection.Wire
import GraphQL.Json.Basic
import GraphQL.Json.Number
import GraphQL.Json.Record
import GraphQL.Json.Text
import GraphQL.Language.DirectiveLocation
import GraphQL.Language.Document
import GraphQL.Language.TypeExpr
import GraphQL.Language.Value
import GraphQL.Number.Binary64
import GraphQL.Number.Decimal
import GraphQL.Proofs.Alike
import GraphQL.Proofs.Building
import GraphQL.Proofs.Coercion
import GraphQL.Proofs.Collecting
import GraphQL.Proofs.Consistency
import GraphQL.Proofs.CycleSearch
import GraphQL.Proofs.Defaults
import GraphQL.Proofs.Definitions
import GraphQL.Proofs.Expansion
import GraphQL.Proofs.FragmentCycles
import GraphQL.Proofs.Fusion
import GraphQL.Proofs.InputCycles
import GraphQL.Proofs.Interfaces
import GraphQL.Proofs.Lexing
import GraphQL.Proofs.LiteralWalk
import GraphQL.Proofs.Literals
import GraphQL.Proofs.Lossless
import GraphQL.Proofs.MergeMemory
import GraphQL.Proofs.MergeOrder
import GraphQL.Proofs.MergeSearch
import GraphQL.Proofs.Merging
import GraphQL.Proofs.Numerals
import GraphQL.Proofs.Order
import GraphQL.Proofs.Pruning
import GraphQL.Proofs.Reachability
import GraphQL.Proofs.Reading
import GraphQL.Proofs.ReadingDocuments
import GraphQL.Proofs.ReadingSelections
import GraphQL.Proofs.ReadingValues
import GraphQL.Proofs.Rebuilding
import GraphQL.Proofs.Registry
import GraphQL.Proofs.Rereading
import GraphQL.Proofs.Respacing
import GraphQL.Proofs.RoundTrip
import GraphQL.Proofs.Runnable
import GraphQL.Proofs.Silence
import GraphQL.Proofs.Snapshot
import GraphQL.Proofs.Subtyping
import GraphQL.Proofs.Trusted
import GraphQL.Proofs.TypeSystem
import GraphQL.Proofs.Usage
import GraphQL.Proofs.ValueText
import GraphQL.Proofs.Visits
import GraphQL.Proofs.Walk
import GraphQL.Proofs.WellTyped
import GraphQL.Proofs.Wire
import GraphQL.Proofs.Writing
import GraphQL.Schema.Basic
import GraphQL.Schema.Consistency
import GraphQL.Schema.Directive
import GraphQL.Schema.Literal
import GraphQL.Schema.NamedType
import GraphQL.Schema.Registry
import GraphQL.Schema.Standard
import GraphQL.Schema.Subtype
import GraphQL.Schema.TypeKind
import GraphQL.Source.Lexer
import GraphQL.Source.Position
import GraphQL.Source.Token
import GraphQL.Text.Block
import GraphQL.Text.Escape
import GraphQL.Text.Hex
import GraphQL.Text.Visible
import GraphQL.Validity.Arguments
import GraphQL.Validity.Basic
import GraphQL.Validity.Definitions
import GraphQL.Validity.Directives
import GraphQL.Validity.Event
import GraphQL.Validity.Fields
import GraphQL.Validity.Fragments
import GraphQL.Validity.Merging
import GraphQL.Validity.Rule
import GraphQL.Validity.Scope
import GraphQL.Validity.TypeSystem
import GraphQL.Validity.Types
import GraphQL.Validity.Variables
import GraphQL.Validity.Violation
import GraphQL.Proofs.InterfaceSearch
import GraphQL.Proofs.Overlap
import GraphQL.Proofs.FragmentUse
import GraphQL.Proofs.VariableUse
import GraphQL.Proofs.Layout
import GraphQL.Proofs.References
import GraphQL.Proofs.Tracing
import GraphQL.Proofs.Spans
import GraphQL.Proofs.VisitedPlaces
import GraphQL.Proofs.Pointing
import GraphQL.Proofs.Ownership
import GraphQL.Proofs.Reports
import GraphQL.Proofs.TypeText
import GraphQL.Proofs.Scalars
import GraphQL.Proofs.Indentation
import GraphQL.Proofs.NumberGrammar
import GraphQL.Proofs.ValueEquality
import GraphQL.Proofs.Progress
import GraphQL.Proofs.Unrolling
import GraphQL.Proofs.CursorSafety
