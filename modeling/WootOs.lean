import WootOs.ByteStore
import WootOs.BitmapStore
import WootOs.MachineInt
import WootOs.VolumeCache
import WootOs.VolumeCacheCoherence
import WootOs.VolumeCacheTransfer
import WootOs.VolumeCacheRuns
import WootOs.PartitionIsolation
import WootOs.PartitionAddressing
import WootOs.PartitionTable
import WootOs.FrameBitmap
import WootOs.BitmapSearches
import WootOs.FrameAllocator
import WootOs.AlignedFrames
import WootOs.KernelMemory
import WootOs.KernelHeap
import WootOs.KernelHeapOrder
import WootOs.KernelHeapRuns
import WootOs.KernelHeapResize
import WootOs.KernelHeapGaps
import WootOs.Ext2Driver
import WootOs.Ext2BlockMap
import WootOs.Ext2Offsets
import WootOs.Ext2Groups
import WootOs.Ext2Allocation
import WootOs.Ext2AllocationRuns
import WootOs.Ext2FileMaps
import WootOs.Ext2FileContents
import WootOs.ObjectQueue
import WootOs.Scheduler
import WootOs.SchedulerPartition
import WootOs.ThreadLinks
import WootOs.SchedulerWakeups
import WootOs.RingQueue
import WootOs.SchedulerWaits
import WootOs.Runs
import WootOs.WaitQueue
import WootOs.Semaphore
import WootOs.Mutex
import WootOs.Paging
import WootOs.BootMemory
import WootOs.PageMap
import WootOs.UnmapRange
import WootOs.KernelSpace
import WootOs.NamedObjects
import WootOs.HandleTable
import WootOs.MessageQueue
import WootOs.RpcCalls
import WootOs.FinalizedThreads
import WootOs.ThreadLifetimes
import WootOs.ReferenceCounts
import WootOs.DentryCache
import WootOs.DentryCounts
import WootOs.DentryRuns
import WootOs.DentryCoherence
import WootOs.UserMemory
import WootOs.HeapPages
import WootOs.DmaBlocks
import WootOs.UserFence
import WootOs.UserCalls
import WootOs.FreshPages
import WootOs.ProcessBreak
import WootOs.CloneWindows
import WootOs.ProcessRegions
import WootOs.LockBalance
import WootOs.InterruptBalance
import WootOs.SyscallSignals
import WootOs.SignalReturns
import WootOs.SharedObjects
import WootOs.SystemTicks
import WootOs.DirectoryListing
import WootOs.WindowScreen
import WootOs.DirectoryTermination
import WootOs.DirectoryFailures
import WootOs.DirectoryCounters
import WootOs.CancelledWaiters
import WootOs.FilePositions
import WootOs.ObjectNames
import WootOs.ObjectDirectories
import WootOs.ObjectLinks
import WootOs.SharedMemory
import WootOs.ByteMemory
import WootOs.Relocations
import WootOs.PathTokens
import WootOs.PathResolution
import WootOs.FullPaths
import WootOs.Calendar
import WootOs.UnixTimes
import WootOs.UuidText
import WootOs.DigitStrings
import WootOs.NumberOutput
import WootOs.StringBuilder
import WootOs.Characters
import WootOs.NumberParsing
import WootOs.Tokenizer
import WootOs.QuotedTokens
import WootOs.UserStack
import WootOs.CountingLoops
import WootOs.LoadLoops
import WootOs.FailedLoads
import WootOs.SegmentPages
import WootOs.SoftDivision
import WootOs.LittleEndian
import WootOs.PixelFormats
import WootOs.PixMaps
import WootOs.PixelAccess
import WootOs.PixelFills
import WootOs.EvenSpread
import WootOs.LineDrawing
import WootOs.RectangleAlgebra
import WootOs.DamageTracking
import WootOs.PixMapFlips
import WootOs.InputDevices
import WootOs.MousePackets
import WootOs.RpcCodec
import WootOs.V86
import WootOs.QueueRuns
import WootOs.Vectors
import WootOs.ListRemoval
import WootOs.LineMoves
import WootOs.SectorTransfers
import WootOs.Leases
import WootOs.WindowBalance
import WootOs.FormatOutput
import WootOs.DebugScreen
import WootOs.InterruptHandlers
import WootOs.DriveCommands
import WootOs.RealTimeClock
