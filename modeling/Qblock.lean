import Qblock.Wire.Scalar
import Qblock.Wire.Reader
import Qblock.Wire.Truncation
import Qblock.Wire.OrderedSet
import Qblock.Wire.Scan
import Qblock.Wire.Layout
import Qblock.Wire.Locality
import Qblock.Wire.Budget
import Qblock.Wire.Concat
import Qblock.Wire.Binding
import Qblock.Wire.Slots
import Qblock.Qt.Text
import Qblock.Qt.Json
import Qblock.Platform
import Qblock.CArray
import Qblock.Conditions
import Qblock.Tokens
import Qblock.Unlocks
import Qblock.Outputs
import Qblock.Payloads
import Qblock.Block
import Qblock.OutputMetadata
import Qblock.Scan
import Qblock.Laws.Containers
import Qblock.Laws.Recursion
import Qblock.Laws.Layout
import Qblock.Laws.Sizes
import Qblock.Laws.Prefixes
import Qblock.Laws.WireForm
import Qblock.Laws.RoundTrip
import Qblock.Laws.Truncation
import Qblock.Laws.Unambiguous
import Qblock.Laws.Embedded
import Qblock.Laws.Json
import Qblock.Laws.JsonForm
import Qblock.Laws.Ids
import Qblock.Laws.Sets
import Qblock.Laws.Numbers
import Qblock.Laws.Scan
import Qblock.Laws.NullSafety
import Qblock.Laws.Nesting
import Qblock.Laws.Decoded
import Qblock.Laws.Lifecycle
import Qblock.Laws.Deposit
import Qblock.Laws.Written
import Qblock.Laws.Canonical
import Qblock.Laws.Locality
import Qblock.Laws.Budget
import Qblock.Laws.Normal
import Qblock.Laws.Appended
import Qblock.Laws.OutputMetadata
import Qblock.Laws.Binding
import Qblock.Laws.Builder
import Qblock.Laws.Maps
import Qblock.Laws.Edits
import Qblock.Laws.JsonFaithful
import Qblock.Laws.JsonRange
