import Prefetch.Trace.Merge
import Prefetch.Trace.SortSum
import Prefetch.Trace.InPlaceMerge
import Prefetch.Trace.SplitTrace
import Prefetch.MoveBlocks.Relocate
import Prefetch.MoveBlocks.PointerTree
import Prefetch.MoveBlocks.Main
import Prefetch.MoveBlocks.RelocateRefine
import Prefetch.MoveBlocks.Room
import Prefetch.MoveBlocks.MainSpec
import Prefetch.MoveBlocks.ExitSafety
import Prefetch.MoveBlocks.LayoutOrder
import Prefetch.MoveBlocks.Estimate
import Prefetch.MoveBlocks.LayoutList
import Prefetch.MoveBlocks.FreeRun
import Prefetch.Lib.Qsort
import Prefetch.Lib.SplayNodes
import Prefetch.Lib.Quotients
import Prefetch.Remap.LoadBlocks
import Prefetch.Remap.BlockLists
import Prefetch.Remap.Bisect
import Prefetch.Remap.FindBlock
import Prefetch.Remap.DumpTimes
import Prefetch.Remap.MapInodes
import Prefetch.Remap.Remapper
import Prefetch.Remap.CopySpec
import Prefetch.Remap.FileTree
import Prefetch.Remap.Offsets
import Prefetch.Remap.Bitmap
import Prefetch.Remap.FreeStretches
import Prefetch.Remap.FindFreeBlocks
import Prefetch.Remap.NotEnough
import Prefetch.Remap.ExtentSplay
import Prefetch.Remap.LoadSpec
import Prefetch.Remap.PointerPass
import Prefetch.Lib.Runs
import Prefetch.Lib.RunningSums
import Prefetch.Core.Buffer
import Prefetch.Core.BufferRuns
import Prefetch.Core.PageRuns
import Prefetch.Core.InodeWalk
import Prefetch.Core.InodeLock
import Prefetch.Core.Readahead
import Prefetch.Core.WalkEffect
import Prefetch.Core.Clients
import Prefetch.Core.Coverage
import Prefetch.Core.Sections
import Prefetch.Core.Tracers
import Prefetch.Core.EmptyRanges
import Prefetch.Core.Overflow
import Prefetch.App.Jobs
import Prefetch.App.JobTable
import Prefetch.App.FileList
import Prefetch.App.FilenameSet
import Prefetch.App.Hooks
import Prefetch.App.ProcNames
import Prefetch.App.TraceFilename
import Prefetch.Boot.Boot
import Prefetch.Boot.Intervals
import Prefetch.Boot.Kernel
import Prefetch.Boot.StopMarker
import Prefetch.Boot.Users
import Prefetch.TraceFile.Buffers
import Prefetch.TraceFile.Format
import Prefetch.TraceFile.KernelFile
import Prefetch.TraceFile.StackHeader
import Prefetch.TraceFile.UserFile
import Prefetch.Compare.Found
import Prefetch.MoveBlocks.FileVisits
import Prefetch.MoveBlocks.BlockCalls
import Prefetch.MoveBlocks.BlockIterate
import Prefetch.MoveBlocks.BlockMap
import Prefetch.Lib.Fields
import Prefetch.Trace.NumberText
import Prefetch.Lib.Distinct
import Prefetch.MoveBlocks.LayoutText
import Prefetch.MoveBlocks.VerifyLayout
import Prefetch.MoveBlocks.OptimizeFs
import Prefetch.Remap.RemapFs
import Prefetch.Remap.LinePieces
import Prefetch.Remap.RemapMain
import Prefetch.Remap.MapBlocks
import Prefetch.Lib.Scan
import Prefetch.Remap.TimesText
import Prefetch.Remap.Reorder
import Prefetch.Boot.Commands
import Prefetch.Boot.NextBoot
import Prefetch.Lib.MovedArray
import Prefetch.Remap.InodeHash
import Prefetch.Remap.FreeExtents
