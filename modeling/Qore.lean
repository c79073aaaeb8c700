import Qore.Lib.Digraph
import Qore.Lib.Dfs
import Qore.Collector.Model
import Qore.Collector.Merge
import Qore.Collector.Commit
import Qore.Collector.Containers
import Qore.Lib.Chain
import Qore.Lib.Deque
import Qore.Lib.Lts
import Qore.Lib.Monitor
import Qore.Queue.Linked
import Qore.Queue.Refine
import Qore.Queue.Wakeup
import Qore.Lib.Partition
import Qore.Pool.Allocation
import Qore.SmartLock.Holders
import Qore.SmartLock.Safety
import Qore.SmartLock.Wakeup
import Qore.Date.Info
import Qore.Date.Local
import Qore.Date.Zone
import Qore.Hash.Model
import Qore.Hash.Refine
import Qore.Hash.Simulation
import Qore.Lib.Ring
import Qore.ListNode.Counts
import Qore.ListNode.ScanCount
import Qore.Pipe.Fifo
import Qore.Text.Compare
import Qore.Text.CutSpec
import Qore.Text.Reach
import Qore.Text.Search
import Qore.Text.Utf8
import Qore.ThreadPool.Correct
import Qore.VLock.Deadlock
import Qore.Ops.Specialise
import Qore.Types.Accept
import Qore.Types.Equal
import Qore.Collector.Locks
import Qore.Collector.Rollback
import Qore.Csv.RoundTrip
import Qore.Date.AddDate
import Qore.Date.Duration
import Qore.Date.Micros
import Qore.Date.MicrosSpec
import Qore.Lib.Conversion
import Qore.Lib.Drain
import Qore.Lib.Keep
import Qore.Lib.Program
import Qore.Queue.ScanCount
import Qore.Slice.Lazy
import Qore.Slice.Remove
import Qore.Slice.RemoveSpec
import Qore.SmartLock.Mutex
import Qore.SmartLock.Wait
import Qore.Stream.Buffered
import Qore.Stream.Transform
import Qore.Stream.TransformSpec
import Qore.Types.Assign
import Qore.Types.Overload
import Qore.Date.DateText
import Qore.Date.ZoneEpoch
import Qore.Hash.Assign
import Qore.Hash.Traverse
import Qore.Lib.Merging
import Qore.Lib.Outcome
import Qore.ListNode.Order
import Qore.ListNode.Raise
import Qore.ListNode.Slots
import Qore.Lib.Consume
import Qore.Serial.Model
import Qore.Serial.RoundTrip
import Qore.Text.Base64
import Qore.Text.Base64RoundTrip
import Qore.Text.Entity
import Qore.Text.Sprintf
import Qore.Types.Common
import Qore.Types.CommonSpec
import Qore.Lib.PrunedScan
import Qore.Ops.RangeIterator
import Qore.Types.Variant
import Qore.Dbi.Datasource
import Qore.Dbi.DatasourceSpec
import Qore.Hash.TreeMap
import Qore.Lib.Components
import Qore.Lib.Online
import Qore.Path.Normalize
import Qore.WebSocket.Frame
import Qore.Stream.Lines
import Qore.Stream.Peek
import Qore.Stream.RecvUntil
import Qore.Url.Parse
import Qore.Url.ParseSpec
import Qore.Lib.Loop
import Qore.TextWrap.Model
import Qore.TextWrap.Correct
