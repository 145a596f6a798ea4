import Libdeepc.AssertFailure
import Libdeepc.AtoiLaw
import Libdeepc.AtomicFlag
import Libdeepc.ChildProcesses
import Libdeepc.ComparisonCounts
import Libdeepc.EndPointer
import Libdeepc.Environment
import Libdeepc.FileLifecycle
import Libdeepc.FormatLanguage
import Libdeepc.HashAllocation
import Libdeepc.HashMapLaw
import Libdeepc.HashProbe
import Libdeepc.LineRuns
import Libdeepc.LinearSearch
import Libdeepc.MallocBlocks
import Libdeepc.MallocProgress
import Libdeepc.MtxCounter
import Libdeepc.NumberLists
import Libdeepc.OutputLock
import Libdeepc.PrintfLimits
import Libdeepc.ProgramEntry
import Libdeepc.QueueLaw
import Libdeepc.Setjmp
import Libdeepc.Signals
import Libdeepc.StringDuplicates
import Libdeepc.StringHash
import Libdeepc.StringPrecision
import Libdeepc.ThreadPointer
import Libdeepc.ThreadStack
import Libdeepc.TokenExhaustion
import Libdeepc.TransferCounts
import Libdeepc.TreeDeletion
import Libdeepc.TreeWalk
import Libdeepc.TssDestructors
import Libdeepc.TssMap
import Libdeepc.ZeroedBlocks
