import Catalogue.Command.Arguments
import Catalogue.Command.Run
import Catalogue.Config
import Catalogue.Exchange.Decode
import Catalogue.Exchange.Encode
import Catalogue.Exchange.Error
import Catalogue.Exchange.Mapping
import Catalogue.Exchange.Security
import Catalogue.Exchange.Visit
import Catalogue.Filter.Basic
import Catalogue.Filter.Operator
import Catalogue.Filter.Value
import Catalogue.Geometry.Coordinate
import Catalogue.Geometry.Distance
import Catalogue.Geometry.Ellipse
import Catalogue.Geometry.Error
import Catalogue.Geometry.Shape
import Catalogue.Geometry.Wkt
import Catalogue.Graph.Basic
import Catalogue.Graph.Error
import Catalogue.Graph.Index
import Catalogue.Graph.Topology
import Catalogue.Graph.Value
import Catalogue.Journal.Entry
import Catalogue.Journal.Line
import Catalogue.Json.Basic
import Catalogue.Json.Reader
import Catalogue.Json.Shape
import Catalogue.Json.Token
import Catalogue.Json.Writer
import Catalogue.Main
import Catalogue.Number.Binary
import Catalogue.Number.Numeral
import Catalogue.Number.Shortest
import Catalogue.Proofs.Exchange.Association
import Catalogue.Proofs.Exchange.Classification
import Catalogue.Proofs.Exchange.Contribution
import Catalogue.Proofs.Exchange.Dates
import Catalogue.Proofs.Exchange.Drafting
import Catalogue.Proofs.Exchange.Encoding
import Catalogue.Proofs.Exchange.Fates
import Catalogue.Proofs.Exchange.Fields
import Catalogue.Proofs.Exchange.Fixpoint
import Catalogue.Proofs.Exchange.Leaves
import Catalogue.Proofs.Exchange.Lineage
import Catalogue.Proofs.Exchange.Losses
import Catalogue.Proofs.Exchange.Marked
import Catalogue.Proofs.Exchange.Markings
import Catalogue.Proofs.Exchange.Outcome
import Catalogue.Proofs.Exchange.Places
import Catalogue.Proofs.Exchange.Policy
import Catalogue.Proofs.Exchange.Preorder
import Catalogue.Proofs.Exchange.Pruning
import Catalogue.Proofs.Exchange.Reencoding
import Catalogue.Proofs.Exchange.Releasability
import Catalogue.Proofs.Exchange.Renumbering
import Catalogue.Proofs.Exchange.RoundTrip
import Catalogue.Proofs.Exchange.Sections
import Catalogue.Proofs.Exchange.Serialized
import Catalogue.Proofs.Exchange.Traversal
import Catalogue.Proofs.Exchange.Typing
import Catalogue.Proofs.Exchange.Unfolding
import Catalogue.Proofs.Exchange.Widening
import Catalogue.Proofs.Filter.Serialized
import Catalogue.Proofs.Geometry.Bounds
import Catalogue.Proofs.Geometry.Envelope
import Catalogue.Proofs.Geometry.Finite
import Catalogue.Proofs.Geometry.Frame
import Catalogue.Proofs.Geometry.Grammar
import Catalogue.Proofs.Geometry.Reading
import Catalogue.Proofs.Geometry.Shapes
import Catalogue.Proofs.Geometry.Variants
import Catalogue.Proofs.Graph.Adjacency
import Catalogue.Proofs.Graph.Ancestry
import Catalogue.Proofs.Graph.Cycle
import Catalogue.Proofs.Graph.Descent
import Catalogue.Proofs.Graph.Editing
import Catalogue.Proofs.Graph.Growth
import Catalogue.Proofs.Graph.Numbering
import Catalogue.Proofs.Graph.Peeling
import Catalogue.Proofs.Graph.Planting
import Catalogue.Proofs.Graph.Serialized
import Catalogue.Proofs.Graph.Timestamp
import Catalogue.Proofs.Graph.Tree
import Catalogue.Proofs.Graph.Valid
import Catalogue.Proofs.Journal.Line
import Catalogue.Proofs.Json.Shape
import Catalogue.Proofs.Json.Text
import Catalogue.Proofs.Json.Token
import Catalogue.Proofs.Lists.Decisive
import Catalogue.Proofs.Lists.Distinct
import Catalogue.Proofs.Lists.Parts
import Catalogue.Proofs.Number.Finite
import Catalogue.Proofs.Number.Integer
import Catalogue.Proofs.Number.Nearest
import Catalogue.Proofs.Number.Notation
import Catalogue.Proofs.Number.Order
import Catalogue.Proofs.Number.Reading
import Catalogue.Proofs.Number.Rounding
import Catalogue.Proofs.Query.Account
import Catalogue.Proofs.Query.Comparison
import Catalogue.Proofs.Query.Confinement
import Catalogue.Proofs.Query.Detail
import Catalogue.Proofs.Query.Grammar
import Catalogue.Proofs.Query.Leftover
import Catalogue.Proofs.Query.Literal
import Catalogue.Proofs.Query.Meaning
import Catalogue.Proofs.Query.Measure
import Catalogue.Proofs.Query.Nesting
import Catalogue.Proofs.Query.Soundness
import Catalogue.Proofs.Query.Spatial
import Catalogue.Proofs.Record.Serialized
import Catalogue.Proofs.Record.Sorted
import Catalogue.Proofs.Schema.Acceptance
import Catalogue.Proofs.Schema.Lookup
import Catalogue.Proofs.Schema.Search
import Catalogue.Proofs.Schema.Table
import Catalogue.Proofs.Schema.View
import Catalogue.Proofs.Text.Layout
import Catalogue.Proofs.Text.Quoted
import Catalogue.Proofs.Text.Words
import Catalogue.Proofs.Time.Calendar
import Catalogue.Proofs.Time.Instant
import Catalogue.Proofs.Time.Stamp
import Catalogue.Query.Build
import Catalogue.Query.Compile
import Catalogue.Query.Numeric
import Catalogue.Query.Term
import Catalogue.Query.Tree
import Catalogue.Record.Basic
import Catalogue.Record.Enumeration
import Catalogue.Record.Product
import Catalogue.Schema.Attribute
import Catalogue.Schema.Basic
import Catalogue.Schema.Declaration
import Catalogue.Schema.Entity
import Catalogue.Schema.Error
import Catalogue.Schema.Standard
import Catalogue.Schema.Table
import Catalogue.Schema.Traversal
import Catalogue.Text.Blank
import Catalogue.Text.Quoted
import Catalogue.Time.Calendar
import Catalogue.Time.Instant
import Catalogue.Time.Reading
import Catalogue.Time.Writing
