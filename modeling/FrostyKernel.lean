import FrostyKernel.Memory.NodeHeaps
import FrostyKernel.Physical.PmmRuns
import FrostyKernel.Heap.HeapRuns
import FrostyKernel.Heap.Sizes
import FrostyKernel.Scheduling.Semaphore
import FrostyKernel.Interrupts.LocalAPIC
import FrostyKernel.Interrupts.NMI
import FrostyKernel.Interrupts.GSIRuns
import FrostyKernel.Scheduling.FutexWake
import FrostyKernel.Scheduling.LevelFairness
import FrostyKernel.Scheduling.ContextRuns
import FrostyKernel.Memory.Unmapping
import FrostyKernel.FileSystem.FDManagerRuns
import FrostyKernel.FileSystem.References
import FrostyKernel.FileSystem.InitRAMFSRuns
import FrostyKernel.Symbols.SymbolTable
import FrostyKernel.Scheduling.ProcessIdentifiers
import FrostyKernel.Stdio.PrintfAgreement
import FrostyKernel.Paging.KernelHalf
import FrostyKernel.Paging.FiveLevelUnmap
import FrostyKernel.Memory.ValidateReturns
import FrostyKernel.Memory.FixedAllocation
import FrostyKernel.Memory.SplitBacking
import FrostyKernel.Memory.FaultRights
import FrostyKernel.SystemCalls.Arguments
import FrostyKernel.Time.Clock
import FrostyKernel.DataStructures.SimpleLinkedList
