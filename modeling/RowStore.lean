import RowStore.Bytes
import RowStore.Utf8
import RowStore.Utf8.Lemmas
import RowStore.Text
import RowStore.Kind
import RowStore.Error
import RowStore.Varint
import RowStore.Checksum
import RowStore.Sink
import RowStore.Cursor
import RowStore.Counted
import RowStore.Value.Basic
import RowStore.Value.Content
import RowStore.Value.Order
import RowStore.Value.Memory
import RowStore.Value.Encoding
import RowStore.Schema.Basic
import RowStore.Schema.Conforms
import RowStore.Schema.Compare
import RowStore.Schema.Memory
import RowStore.Schema.Codec
import RowStore.Schema.Writing
import RowStore.Storage.Basic
import RowStore.Storage.Search
import RowStore.Storage.Codec
import RowStore.Page.Basic
import RowStore.Page.Codec
import RowStore.Script
import RowStore.Proofs.Order
import RowStore.Proofs.Datum
import RowStore.Proofs.Search
import RowStore.Proofs.Checksum
import RowStore.Proofs.OrderLaws
import RowStore.Proofs.Scan
import RowStore.Proofs.Sharing
import RowStore.Proofs.Varint.Classification
import RowStore.Proofs.BigEndian
import RowStore.Proofs.Varint
import RowStore.Proofs.Capacity
import RowStore.Proofs.Spelling
import RowStore.Proofs.Steady
import RowStore.Proofs.Varint.Shortest
import RowStore.Proofs.Utf8
import RowStore.Proofs.Utf8.Refusal
import RowStore.Proofs.RoundTrip
import RowStore.Proofs.Reading
import RowStore.Proofs.Placement
import RowStore.Proofs.Misfit
import RowStore.Proofs.FailedWrite
import RowStore.Proofs.Growth
import RowStore.Proofs.Memory
import RowStore.Proofs.Leaves
import RowStore.Proofs.Storage
import RowStore.Proofs.Frame
import RowStore.Page.Run
import RowStore.Proofs.Page.Keys
import RowStore.Proofs.Page.Encoding
import RowStore.Proofs.Page.Detection
import RowStore.Proofs.Page.Acceptance
import RowStore.Proofs.Page.Invariant
import RowStore.Proofs.Probes
import RowStore.Proofs.Page.RoundTrip
import RowStore.Proofs.Page.BoundedSet
import RowStore.Proofs.Page.Refinement
import RowStore.Proofs.Page.PrefixRange
import RowStore.Proofs.Page.Ordered
import RowStore.Proofs.Page.Canonical
import RowStore.Proofs.Footprint
import RowStore.Proofs.Script
import RowStore.Proofs.Cursor
import RowStore.Proofs.Page.Hint
