import PathArmor.Library.Walk
import PathArmor.Library.Brackets
import PathArmor.Library.Worklist
import PathArmor.Library.Transition
import PathArmor.Library.Slots
import PathArmor.Library.Ring
import PathArmor.Library.SwapRemove
import PathArmor.Library.Text
import PathArmor.Library.Grouping
import PathArmor.Library.Memory
import PathArmor.Library.X86
import PathArmor.Library.BinarySearch
import PathArmor.Library.IndexLoop
import PathArmor.Kernel.SyscallHandler
import PathArmor.Kernel.Offsets
import PathArmor.Shared.LibEnter
import PathArmor.Shared.Callback
import PathArmor.Shared.WithModule
import PathArmor.LbrState
import PathArmor.RoundTrip
import PathArmor.LinkBounds
import PathArmor.RawScan
import PathArmor.Analyzer.JitContext
import PathArmor.Analyzer.JitComplete
import PathArmor.Analyzer.Collapse
import PathArmor.Analyzer.Learning
import PathArmor.Analyzer.History
import PathArmor.Analyzer.CacheKey
import PathArmor.Kernel.Validation
import PathArmor.Kernel.ShadowStack
import PathArmor.Kernel.LbrCache
import PathArmor.Kernel.Transparency
import PathArmor.Kernel.Recording
import PathArmor.Kernel.Isolation
import PathArmor.Kernel.Lifetime
import PathArmor.Kernel.Supervision
import PathArmor.Kernel.Loading
import PathArmor.Kernel.VerdictCache
import PathArmor.Kernel.Tables
import PathArmor.Analyzer.Daemon
import PathArmor.Analyzer.StateComplete
import PathArmor.Analyzer.EdgeLookup
import PathArmor.Analyzer.JitMoments
import PathArmor.Analyzer.JitAbort
import PathArmor.Analyzer.StateBounds
import PathArmor.Analyzer.StateSet
import PathArmor.Analyzer.KernelStates
import PathArmor.Analyzer.IcallResolver
import PathArmor.Analyzer.Insert
import PathArmor.Analyzer.Retouch
import PathArmor.Analyzer.DummyBlocks
import PathArmor.Analyzer.EdgeSymmetry
import PathArmor.Analyzer.ValidPath
import PathArmor.Analyzer.Gates
import PathArmor.Analyzer.Preprocess
import PathArmor.Analyzer.PltReturns
import PathArmor.Pass.WrapLibraries
import PathArmor.Pass.Handover
import PathArmor.Service
