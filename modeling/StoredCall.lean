import StoredCall.Name
import StoredCall.Path
import StoredCall.Subprogram
import StoredCall.Number.Shortest
import StoredCall.Text.Base64
import StoredCall.Timestamp
import StoredCall.Value.Coerce
import StoredCall.Json.Reader
import StoredCall.Value.Document
import StoredCall.Value.Lob
import StoredCall.Assoc
import StoredCall.Catalog.Row
import StoredCall.Catalog.Store
import StoredCall.TypeGraph.Discovery
import StoredCall.TypeGraph.Equality
import StoredCall.TypeGraph.Expansion
import StoredCall.Snapshot.Binary
import StoredCall.Subprogram.Fill
import StoredCall.Directive
import StoredCall.Stub
import StoredCall.Schema.OfSubprograms
import StoredCall.Call.Scripted
import StoredCall.Command
import StoredCall.Main
import StoredCall.Proofs.Stub.Placeholders
import StoredCall.Proofs.Stub.ColumnArrays
import StoredCall.Proofs.Call.Inputs
import StoredCall.Proofs.Stub.GlueRun
import StoredCall.Proofs.TypeGraph.Reached
import StoredCall.Proofs.Schema.Text
import StoredCall.Proofs.Schema.Layout
import StoredCall.Proofs.Schema.Consistency
import StoredCall.Proofs.Schema.Leaves
import StoredCall.Proofs.Schema.Mirror
import StoredCall.Proofs.Schema.Service
import StoredCall.Proofs.Subprogram.Rows
import StoredCall.Proofs.TypeGraph.Order
import StoredCall.Proofs.Subprogram.EntryPoints
import StoredCall.Proofs.Json
import StoredCall.Proofs.Text.Utf8
import StoredCall.Proofs.Value.Markup
import StoredCall.Proofs.Value.Json
import StoredCall.Proofs.Call.Delivery
import StoredCall.Proofs.Call.Batches
import StoredCall.Proofs.Call.LargeObjects
import StoredCall.Proofs.Name
import StoredCall.Proofs.TypeGraph.Memo
import StoredCall.Proofs.Snapshot.Binary
import StoredCall.Proofs.TypeGraph.Bounds
import StoredCall.Proofs.TypeGraph.Reload
import StoredCall.Proofs.Text.Base64
import StoredCall.Proofs.Timestamp
import StoredCall.Proofs.Stub.Execution
import StoredCall.Proofs.Value.Wire
import StoredCall.Proofs.Stub.Copying
import StoredCall.Proofs.Stub.TableCopies
import StoredCall.Proofs.TypeGraph.Equality
import StoredCall.Proofs.Stub.Bindings
import StoredCall.Proofs.Stub.Isolation
import StoredCall.Proofs.Stub.PathTexts
import StoredCall.Proofs.Subprogram.Levels
import StoredCall.Proofs.TypeGraph.Expansion
import StoredCall.Proofs.Subprogram.RowOrder
import StoredCall.Proofs.Directive.Overlay
import StoredCall.Proofs.TypeGraph.Termination
import StoredCall.Proofs.TypeGraph.Scan
import StoredCall.Proofs.Value.Laws
import StoredCall.Proofs.Value.Coerce
import StoredCall.Proofs.Stub.Idents
import StoredCall.Proofs.Path.NormalForm
import StoredCall.Proofs.Text.RawLiteral
import StoredCall.Proofs.Text.Siblings
