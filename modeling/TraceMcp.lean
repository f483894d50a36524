import TraceMcp.Lib.FastMap
import TraceMcp.Lib.Word
import TraceMcp.Lib.Text
import TraceMcp.Lib.Numeral
import TraceMcp.Lib.Spread
import TraceMcp.Model.Error
import TraceMcp.Model.Events
import TraceMcp.Model.Session
import TraceMcp.Decode.Records
import TraceMcp.Decode.PerfScript
import TraceMcp.Decode.FastLine
import TraceMcp.Decode.Cursor
import TraceMcp.Decode.Printed
import TraceMcp.Decode.Guard
import TraceMcp.Decode.Stream
import TraceMcp.Decode.Lineage
import TraceMcp.Decode.Images
import TraceMcp.Decode.Instructions
import TraceMcp.Decode.Reconstruct
import TraceMcp.Decode.Frames
import TraceMcp.Decode.Finish
import TraceMcp.Lib.Runs
import TraceMcp.Lib.Tally
import TraceMcp.Decode.Ledger
import TraceMcp.Decode.Refine
import TraceMcp.Decode.PreExec
import TraceMcp.Decode.Postings
import TraceMcp.Decode.Lives
import TraceMcp.Decode.Forest
import TraceMcp.Decode.Accounts
import TraceMcp.Decode.Identity
import TraceMcp.Decode.Timing
import TraceMcp.Decode.Intervals
import TraceMcp.Decode.Continuity
import TraceMcp.Decode.Losses
import TraceMcp.Decode.Spilling
import TraceMcp.Lib.KWayMerge
import TraceMcp.Lib.Ordered
import TraceMcp.Decode.Native
import TraceMcp.Service.Merge
import TraceMcp.Service.StableMerge
import TraceMcp.Service.Confinement
import TraceMcp.Service.NativeOrder
import TraceMcp.Service.NativeLosses
import TraceMcp.Service.Coord
import TraceMcp.Service.CoordRun
import TraceMcp.Service.Accounting
import TraceMcp.Service.Admission
import TraceMcp.Service.Phases
import TraceMcp.Service.Duties
import TraceMcp.Service.Store
import TraceMcp.Service.Daemon
import TraceMcp.Service.Restart
import TraceMcp.Service.Usage
import TraceMcp.Service.Filing
import TraceMcp.Service.Answers
import TraceMcp.Service.Carried
import TraceMcp.Service.Snapshots
import TraceMcp.Lib.JsonText
import TraceMcp.Service.Requests
import TraceMcp.Lib.Faults
import TraceMcp.Service.Import
import TraceMcp.Capture.Recorder
import TraceMcp.Lib.Bytes
import TraceMcp.Capture.PerfData
import TraceMcp.Capture.Bundle
import TraceMcp.Capture.RoundTrip
import TraceMcp.Capture.Discovery
import TraceMcp.Capture.Split
import TraceMcp.Capture.Returns
import TraceMcp.Capture.Untrusted
import TraceMcp.Capture.Restriction
import TraceMcp.Service.Paging
import TraceMcp.Service.Cursors
import TraceMcp.Service.Listing
import TraceMcp.Decode.Instants
import TraceMcp.Service.Instant
import TraceMcp.Service.InstantChain
import TraceMcp.Decode.Chart
import TraceMcp.Decode.Origin
import TraceMcp.Decode.Coverage
import TraceMcp.Decode.Sequences
import TraceMcp.Decode.Contract
import TraceMcp.Lib.Intervals
import TraceMcp.Analysis.Timeline
import TraceMcp.Analysis.Hotpaths
import TraceMcp.Analysis.SelfTime
import TraceMcp.Analysis.SpanOrder
import TraceMcp.Analysis.Compare
import TraceMcp.Analysis.Paired
import TraceMcp.Analysis.Matching
import TraceMcp.Decode.Starts
import TraceMcp.Analysis.ParentsFirst
import TraceMcp.Decode.Symbols
import TraceMcp.Decode.BlockStarts
import TraceMcp.Decode.Blocks
import TraceMcp.Decode.InlineRows
import TraceMcp.Decode.Resolution
import TraceMcp.Decode.BlockCache
import TraceMcp.Decode.ExecMaps
import TraceMcp.Lib.Tiling
import TraceMcp.Decode.PsbSplit
import TraceMcp.Capture.Clock
import TraceMcp.Lib.Circular
import TraceMcp.Lib.PowersOfTwo
import TraceMcp.Capture.Rings
import TraceMcp.Capture.Threads
import TraceMcp.Decode.FunctionTable
import TraceMcp.Analysis.Windows
import TraceMcp.Model.Topology
import TraceMcp.Lib.Split
import TraceMcp.Analysis.References
import TraceMcp.Decode.Sideband
import TraceMcp.Decode.TaskNames
import TraceMcp.Decode.MappingLines
import TraceMcp.Decode.BlobDecoder
import TraceMcp.Lib.Advance
import TraceMcp.Decode.BlobHistory
import TraceMcp.Decode.BlobBranches
import TraceMcp.Decode.BlobStream
import TraceMcp.Capture.Trigger
