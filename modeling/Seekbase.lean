import Seekbase.Lib.Json
import Seekbase.Lib.JsonRoundTrip
import Seekbase.Lib.JsonCut
import Seekbase.Lib.Utf8
import Seekbase.Lib.Encoding
import Seekbase.Lib.JsonLimits
import Seekbase.Lib.Lines
import Seekbase.Lib.Run
import Seekbase.Lib.PipeLine
import Seekbase.Lib.PipeOrder
import Seekbase.Struct
import Seekbase.File
import Seekbase.Store
import Seekbase.Act
import Seekbase.Write
import Seekbase.Admin
import Seekbase.Replay
import Seekbase.Agree
import Seekbase.Fidelity
import Seekbase.TimeMachine
import Seekbase.Atomicity
import Seekbase.System
import Seekbase.Mirror
import Seekbase.Canonical
import Seekbase.Programs
import Seekbase.Concurrent
import Seekbase.TornTail
import Seekbase.Batch
import Seekbase.WriteOnce
import Seekbase.Done
import Seekbase.Whole
import Seekbase.Shutdown
import Seekbase.Fifo
import Seekbase.Task
import Seekbase.Cancel
import Seekbase.Text
import Seekbase.Operator
import Seekbase.Pipeline
import Seekbase.Authorize
import Seekbase.Spawn
import Seekbase.Verdict
import Seekbase.Filter
import Seekbase.Jsonl
import Seekbase.Stream
import Seekbase.Poll
import Seekbase.Cursor
import Seekbase.Unseen
import Seekbase.ReadPool
import Seekbase.Isolation
import Seekbase.Chain
import Seekbase.Delivery
import Seekbase.Drain
import Seekbase.Parse
import Seekbase.Create
import Seekbase.Kind
import Seekbase.Keys
import Seekbase.Transparent
import Seekbase.Derived
import Seekbase.Lib.Ranked
import Seekbase.Scan
import Seekbase.Shell
import Seekbase.Inert
import Seekbase.Search
import Seekbase.Crowding
import Seekbase.Remote
import Seekbase.Forms
import Seekbase.Wire
import Seekbase.Route
import Seekbase.Holes
import Seekbase.Lower
import Seekbase.Bind
import Seekbase.Shape
import Seekbase.Timeout
import Seekbase.Pipes
import Seekbase.Lib.Cte
import Seekbase.Fusion
import Seekbase.Seam
import Seekbase.Days
import Seekbase.Names
import Seekbase.Landing
import Seekbase.Clock
import Seekbase.TaskLog
import Seekbase.TornTask
import Seekbase.Results
import Seekbase.Handover
import Seekbase.StreamShape
import Seekbase.Closing
import Seekbase.Lib.Sql
import Seekbase.Paste
import Seekbase.Composition
import Seekbase.Midnight
import Seekbase.Past
import Seekbase.Cosine
import Seekbase.Nesting
import Seekbase.Embedding
import Seekbase.Lib.AtomicFile
import Seekbase.SideFile
import Seekbase.Reopen
