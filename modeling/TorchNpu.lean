import TorchNpu.Lib.LittleEndian
import TorchNpu.Lib.TracedRead
import TorchNpu.Lib.Framing
import TorchNpu.Lib.Machine
import TorchNpu.Lib.AListSum
import TorchNpu.Store.Packer
import TorchNpu.Store.Spec.Packer
import TorchNpu.Store.ClientIo
import TorchNpu.Store.Spec.ClientIo
import TorchNpu.Store.Handlers
import TorchNpu.Store.Server
import TorchNpu.Store.Spec.Server
import TorchNpu.Store.Spec.Wait
import TorchNpu.Store.Connection
import TorchNpu.Store.Spec.Isolation
import TorchNpu.Lib.Ring
import TorchNpu.Queue.Repository
import TorchNpu.Queue.Spec.Ring
import TorchNpu.Queue.Spec.Release
import TorchNpu.Queue.Spec.Drain
import TorchNpu.Queue.Spec.Handshake
import TorchNpu.Allocator.State
import TorchNpu.Lib.Wp
import TorchNpu.Allocator.ExpandableSegment
import TorchNpu.Allocator.Operations
import TorchNpu.Store.Spec.Handlers
import TorchNpu.Store.Workers
import TorchNpu.Store.Spec.Workers
import TorchNpu.Store.Spec.Output
import TorchNpu.Store.StoreClient
import TorchNpu.Store.Spec.Reply
import TorchNpu.Allocator.EventErrors
import TorchNpu.Allocator.Spec.EventErrors
import TorchNpu.Lib.Linked
import TorchNpu.Allocator.Spec.Blocks
import TorchNpu.Allocator.Spec.Moves
import TorchNpu.Allocator.Spec.Sound
import TorchNpu.Allocator.Spec.Base
import TorchNpu.Allocator.Spec.FreeRefines
import TorchNpu.Allocator.Spec.MapRefines
import TorchNpu.Allocator.Spec.ReleaseRefines
import TorchNpu.Allocator.Spec.Refinement
import TorchNpu.Allocator.Spec.Steps
import TorchNpu.Allocator.Spec.Trace
import TorchNpu.Allocator.Spec.Descent
import TorchNpu.Allocator.Spec.Reuse
import TorchNpu.Allocator.Spec.Limit
import TorchNpu.Events.EventManager
import TorchNpu.Events.Spec.Counters
import TorchNpu.Events.NPUEvent
import TorchNpu.Events.Spec.Ordering
import TorchNpu.Distributed.Tensor
import TorchNpu.Distributed.Collective
import TorchNpu.Lib.Checked
import TorchNpu.Distributed.Spec.Protection
import TorchNpu.Distributed.Layout
import TorchNpu.Distributed.Spec.Inputs
import TorchNpu.Distributed.Spec.Layout
import TorchNpu.Lib.Spmd
import TorchNpu.Distributed.Gather
import TorchNpu.Distributed.Spec.Gather
import TorchNpu.Distributed.Exchange
import TorchNpu.Distributed.Spec.Exchange
import TorchNpu.Profiler.Spec.Scheduling
import TorchNpu.Profiler.Spec.TaskMessages
import TorchNpu.Profiler.RingBuffer
import TorchNpu.Profiler.Spec.RingBuffer
import TorchNpu.Distributed.Spec.WorkMetaLists
import TorchNpu.Queue.ReleaseQueue
import TorchNpu.Queue.Spec.ReleaseQueue
import TorchNpu.Events.IpcRegistry
import TorchNpu.Events.Spec.IpcRegistry
import TorchNpu.Lib.Text
import TorchNpu.Profiler.DataReporter
import TorchNpu.Profiler.EventTreeParser
import TorchNpu.Profiler.Spec.TlvDecoder
import TorchNpu.Profiler.NpuProfiler
import TorchNpu.Profiler.Spec.EventTreeParser
import TorchNpu.SilentCheck.ChecksumState
import TorchNpu.SilentCheck.Spec.ChecksumState
import TorchNpu.SilentCheck.Detection
import TorchNpu.SilentCheck.Spec.Detection
import TorchNpu.SilentCheck.FaultReports
import TorchNpu.SilentCheck.Spec.FaultReports
import TorchNpu.Profiler.ActionController
import TorchNpu.Profiler.Spec.ActionController
import TorchNpu.Distributed.Spec.TraceBuffer
import TorchNpu.Profiler.DynamicProfile
import TorchNpu.Profiler.Spec.DynamicProfile
import TorchNpu.Store.Spec.SyncCall
import TorchNpu.Store.Spec.ReadLoops
import TorchNpu.Contiguous.Optimizers
import TorchNpu.Contiguous.Spec.Slicing
import TorchNpu.Contiguous.Spec.Permuting
import TorchNpu.Allocator.Workspace
import TorchNpu.Allocator.Spec.Workspace
import TorchNpu.Profiler.TorchOpNode
import TorchNpu.Profiler.Spec.TorchOpNode
import TorchNpu.Profiler.EventTree
import TorchNpu.Profiler.Spec.TensorIds
import TorchNpu.Profiler.Spec.EventTree
import TorchNpu.Profiler.Spec.EventNesting
import TorchNpu.Inductor.IterationRanges
import TorchNpu.Inductor.Spec.IterationRanges
import TorchNpu.Afd.ScheduleContext
import TorchNpu.Afd.Spec.ScheduleContext
import TorchNpu.Format.FormatHelper
import TorchNpu.Format.Spec.FormatHelper
import TorchNpu.Contiguous.Spec.Broadcasting
import TorchNpu.Format.NzLayout
import TorchNpu.Contiguous.Spec.Reshaping
import TorchNpu.Allocator.Spec.MappedSegment
import TorchNpu.Profiler.Spec.TimeRangeCalculator
import TorchNpu.Profiler.Spec.FwkFileParser
import TorchNpu.Profiler.Spec.FwkCannRelationParser
import TorchNpu.Profiler.Spec.TreeBuilder
import TorchNpu.Profiler.Spec.PythonTraceParser
import TorchNpu.Distributed.Spec.SplitSizes
import TorchNpu.Distributed.Spec.Communicators
import TorchNpu.Distributed.Spec.WatchdogErrors
import TorchNpu.Profiler.Spec.Scheduler
import TorchNpu.Profiler.DynamicProfiler
import TorchNpu.Profiler.Spec.DynamicProfiler
import TorchNpu.SilentCheck.Spec.Strikes
import TorchNpu.DTensor.Spec.MatmulBackward
import TorchNpu.DTensor.Spec.RepeatOps
import TorchNpu.DTensor.Spec.LossOps
import TorchNpu.Core.PeerToPeerAccess
import TorchNpu.Core.Spec.PeerToPeerAccess
import TorchNpu.Allocator.AllocatorConfig
import TorchNpu.Allocator.Spec.Rounding
import TorchNpu.Format.StorageDescHelper
import TorchNpu.Format.Spec.StorageDescHelper
import TorchNpu.DTensor.CommMatmul
import TorchNpu.DTensor.Spec.CommMatmul
import TorchNpu.Core.GraphDispatch
import TorchNpu.Core.Spec.GraphDispatch
import TorchNpu.Core.AffinityController
import TorchNpu.Core.Spec.AffinityController
import TorchNpu.Profiler.MemoryPrepareParser
import TorchNpu.Profiler.Spec.MemoryPrepareParser
import TorchNpu.Profiler.Spec.MemoryOpNames
import TorchNpu.Lib.WeightedKeys
import TorchNpu.Core.GetCANNInfo
import TorchNpu.Core.Spec.GetCANNInfo
import TorchNpu.Lib.Paths
import TorchNpu.Utils.Serialization
import TorchNpu.Utils.Spec.Serialization
import TorchNpu.DTensor.Attention
import TorchNpu.DTensor.Spec.Attention
import TorchNpu.Lib.Spans
import TorchNpu.Core.Generator
import TorchNpu.Core.Spec.Generator
import TorchNpu.Allocator.Spec.Layout
