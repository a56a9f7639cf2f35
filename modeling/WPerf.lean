import WPerf.Library.Fallible
import WPerf.Library.Word
import WPerf.Library.OrderedMap
import WPerf.Library.Timeline
import WPerf.Library.Tally
import WPerf.Library.Reordering
import WPerf.Library.Dict
import WPerf.Library.Text
import WPerf.Library.Runs
import WPerf.Library.Threads
import WPerf.Library.Switches
import WPerf.Library.Movers
import WPerf.Library.Lock
import WPerf.Library.Probes
import WPerf.Library.ColoredTree
import WPerf.Library.SearchTree
import WPerf.Analyzer.Events
import WPerf.Analyzer.Process
import WPerf.Analyzer.Cascade
import WPerf.Analyzer.Thread
import WPerf.Analyzer.Prepared
import WPerf.Analyzer.Segmentation
import WPerf.Analyzer.Tiling
import WPerf.Analyzer.Stretch
import WPerf.Analyzer.Waits
import WPerf.Analyzer.BlockedTime
import WPerf.Analyzer.Slices
import WPerf.Analyzer.SoftirqTime
import WPerf.Analyzer.Walk
import WPerf.Analyzer.Overlaps
import WPerf.Analyzer.Returns
import WPerf.Analyzer.Charges
import WPerf.Analyzer.Redistribution
import WPerf.Analyzer.Accounting
import WPerf.Analyzer.Output
import WPerf.Analyzer.Ties
import WPerf.Analyzer.PidOrder
import WPerf.Analyzer.Wakers
import WPerf.Analyzer.WholeRun
import WPerf.Treemap.Redblacktree
import WPerf.Treemap.Shape
import WPerf.Treemap.Rotation
import WPerf.Treemap.Insertion
import WPerf.Treemap.Put
import WPerf.Treemap.Lookup
import WPerf.Treemap.Iterator
import WPerf.Treemap.Map
import WPerf.Treemap.Segments
import WPerf.Treemap.SoftMap
import WPerf.Treemap.Program
import WPerf.Trace.Record
import WPerf.Trace.Print
import WPerf.Trace.Encode
import WPerf.Trace.Load
import WPerf.Trace.Json
import WPerf.Trace.Parsed
import WPerf.Trace.Fields
import WPerf.Trace.Lines
import WPerf.Trace.RoundTrip
import WPerf.Trace.Forgery
import WPerf.Trace.Losses
import WPerf.Module.Kernel
import WPerf.Module.DiskUtils
import WPerf.Module.DiskTable
import WPerf.Module.DiskFilter
import WPerf.Module.DiskCounts
import WPerf.Module.TxStat
import WPerf.Module.PidFilter
import WPerf.Module.PidBounds
import WPerf.Module.TxCounts
import WPerf.Module.PidReadBack
import WPerf.Module.SendPaths
import WPerf.Module.Arming
import WPerf.Module.FileReads
import WPerf.Module.Statements
import WPerf.Module.EnableRace
import WPerf.Module.FileCalls
import WPerf.Module.Interleaving
import WPerf.Module.Softirqs
import WPerf.Recorder.EventCtx
import WPerf.Recorder.CopyLoop
import WPerf.Recorder.Requests
import WPerf.Recorder.Recorder
import WPerf.Recorder.OutputPaths
import WPerf.System.Machine
import WPerf.System.History
import WPerf.System.Pipeline
