import Jed.Lib.SortedMap
import Jed.Lib.Chain
import Jed.Lib.Arc
import Jed.Bytes
import Jed.PMap.Size
import Jed.PMap.Tree
import Jed.PMap.Ordered
import Jed.PMap.Contents
import Jed.PMap.SplitPoint
import Jed.PMap.Fit
import Jed.PMap.Heap
import Jed.PMap.Rep
import Jed.PMap.SimInsert
import Jed.PMap.SimRemove
import Jed.PMap.Map
import Jed.PMap.SimMap
import Jed.PMap.Snapshots
import Jed.PMap.NodeFit
import Jed.PMap.Emptiness
import Jed.PMap.Ownership
import Jed.Lib.Window
import Jed.PMap.Scan
import Jed.PMap.InBound
import Jed.PMap.Traversals
import Jed.PMap.FailedRemove
import Jed.PMap.RootEdits
import Jed.PMap.Cursor
import Jed.Lib.Runs
import Jed.Pool.State
import Jed.Pool.System
import Jed.Pool.Coherence
import Jed.Lib.PrefixOrder
import Jed.Gin.Codec
import Jed.Gin.Runs
import Jed.Gin.Postings
import Jed.Gin.Refine
import Jed.Gin.Gather
import Jed.Gin.ProbeGroups
import Jed.Gin.Evaluate
import Jed.Lib.Cuts
import Jed.Value.Decimal
import Jed.Value.Value
import Jed.Range.Ops
import Jed.Range.Denote
import Jed.Range.SetOps
import Jed.Range.Types
import Jed.Lib.KeyCodes
import Jed.Lib.BinarySearch
import Jed.Lib.Positional
import Jed.Value.Float
import Jed.Key.Order
import Jed.Key.Encode
import Jed.Key.Scalars
import Jed.Key.Decimals
import Jed.Key.Containers
import Jed.Key.IndexOrder
import Jed.Key.Elements
import Jed.Lib.Reader
import Jed.Codec.Read
import Jed.Codec.Number
import Jed.Codec.Jsonb
import Jed.Codec.Inline
import Jed.Codec.RoundTrip
import Jed.Codec.AnyInput
import Jed.Codec.Lz4
import Jed.Codec.Page
import Jed.Codec.Overflow
import Jed.Codec.Deferred
import Jed.Codec.Stored
import Jed.Codec.Plan
import Jed.Codec.PlanPasses
import Jed.Codec.PlanInvariance
import Jed.Codec.PlanLengths
import Jed.Codec.LeafPage
import Jed.Codec.PlanSizes
import Jed.Codec.StoredForms
import Jed.Codec.LeafLength
import Jed.Codec.PaxRoundTrip
import Jed.Wire.Frame
import Jed.Wire.Parts
import Jed.Wire.RoundTrip
import Jed.Commit.Roots
import Jed.Commit.Atomic
import Jed.Lib.TotalOn
import Jed.Compare.Values
import Jed.Compare.Scalars
import Jed.Compare.Coherence
import Jed.Dml.With
import Jed.Commit.Recovery
import Jed.Sql.Agreement
import Jed.Crypto.Unlocks
import Jed.Spill.SortedOutput
import Jed.Lib.MapRel
import Jed.Txn.Snapshot
import Jed.Txn.Sharing
import Jed.Txn.Writes
import Jed.Txn.Block
import Jed.Txn.Marked
import Jed.Txn.Savepoints
import Jed.Txn.Changed
import Jed.Implies.Partial
import Jed.Sorts.TopK
import Jed.Window.Denote
import Jed.Window.Carry
import Jed.Unicode.Bundle
import Jed.Kernels.Denote
import Jed.Host.Scan
import Jed.Regex.Budget
import Jed.Regex.OneSequence
import Jed.Crypto.ScratchRuns
import Jed.Datetime.Fields
import Jed.Format.Rounded
import Jed.Cte.Paths
import Jed.Estimator.Rows
import Jed.Intervals.Scale
import Jed.Value.DecimalSqrt
import Jed.Containers.Text
import Jed.Access.IntervalSet
import Jed.Datetime.WallClock
