import Iposix.Lib.Flat
import Iposix.Lib.Word
import Iposix.Lib.LittleEndian
import Iposix.Lib.Walk
import Iposix.Devices.BlockDevice
import Iposix.Proofs.BlockRefine
import Iposix.Fs.FatFs
import Iposix.Proofs.ClusterRefine
import Iposix.Lib.Chain
import Iposix.Lib.Ring
import Iposix.Proofs.Rotation
import Iposix.Lib.Run
import Iposix.Sched.Scheduler
import Iposix.Proofs.ContextSave
import Iposix.Mm.FuStructure
import Iposix.Mm.Splitted
import Iposix.Lib.Links
import Iposix.Lib.Tiling
import Iposix.Proofs.Heap
import Iposix.Proofs.KernelHeap
import Iposix.Proofs.HeapRuns
import Iposix.Mm.Dereferences
import Iposix.Lib.Bits
import Iposix.Proofs.PageBitmap
import Iposix.Proofs.ManagerRuns
import Iposix.Lib.Aligned
import Iposix.Vm.Paging
import Iposix.Vm.Process
import Iposix.Proofs.PageUse
import Iposix.Proofs.KernelWindow
import Iposix.Proofs.WindowRuns
import Iposix.Proofs.ForkCopy
import Iposix.Devices.Keyboard
import Iposix.Lib.Fifo
import Iposix.Proofs.KeyboardQueue
import Iposix.Devices.Video
import Iposix.Proofs.VideoTerminal
import Iposix.Devices.Ata
import Iposix.Proofs.AtaTransfer
import Iposix.Proofs.Partitions
import Iposix.Fs.Filehandle
import Iposix.Proofs.SequentialRead
import Iposix.Fs.FatMount
import Iposix.Proofs.FatLookups
import Iposix.Fs.NodeOperations
import Iposix.Proofs.OpenBalance
import Iposix.Fs.Descriptors
import Iposix.Proofs.OpenLifetime
import Iposix.Vm.ProgramBreak
import Iposix.Elf.ElfLoader
import Iposix.Proofs.Mapping
import Iposix.Proofs.BreakLaw
import Iposix.Proofs.CopyIn
import Iposix.Proofs.ChunkedCopy
import Iposix.Lib.FirstFit
import Iposix.Proofs.Placement
import Iposix.Proofs.Reset
import Iposix.Proofs.Unmapping
import Iposix.Proofs.Confined
import Iposix.Proofs.RangeCover
import Iposix.Proofs.ElfConfined
import Iposix.Proofs.ElfImage
import Iposix.Devices.KeyboardDecoder
import Iposix.Proofs.KeyDecoding
import Iposix.Devices.Memory
import Iposix.Proofs.MemoryAreas
import Iposix.Fs.FileCalls
import Iposix.Proofs.DescriptorTable
import Iposix.Fs.Lookups
import Iposix.Proofs.LookupFaults
import Iposix.Proofs.SeekResult
import Iposix.Proofs.MountVisibility
import Iposix.Proofs.FatChain
import Iposix.Proofs.TableBits
import Iposix.Lib.Padded
import Iposix.Proofs.ShortNames
import Iposix.Lib.Cells
import Iposix.Proofs.BitmapCells
import Iposix.Lib.BitString
import Iposix.Proofs.FileBounds
import Iposix.Fs.FatFsNode
import Iposix.Proofs.ClusterPlacement
import Iposix.Lib.Cycle
import Iposix.Proofs.DirectoryLookup
import Iposix.Proofs.FollowedLinks
import Iposix.Proofs.FreeEntries
import Iposix.Proofs.FailedCalls
import Iposix.Elf.FileNode
import Iposix.Proofs.FailedLoad
import Iposix.Proofs.AreaLayout
import Iposix.Proofs.ManagerCalls
import Iposix.Proofs.PageContract
import Iposix.Proofs.HeapBounds
import Iposix.Proofs.Returned
import Iposix.Proofs.IllegalFrees
import Iposix.Proofs.PathTokens
import Iposix.Proofs.PathReference
import Iposix.Proofs.LiveEntries
import Iposix.Proofs.TaskStateSegment
import Iposix.Proofs.Preemption
import Iposix.Proofs.EscapePrefix
import Iposix.Proofs.Removal
import Iposix.Proofs.Unblocking
import Iposix.Proofs.ProbeTermination
import Iposix.Fs.DevFsNode
import Iposix.Proofs.PartitionContainment
import Iposix.Sched.ProcessScheduleData
import Iposix.Proofs.StackCopy
import Iposix.Proofs.AtaEncoding
import Iposix.Proofs.FailingWrite
import Iposix.Fs.Container
import Iposix.Proofs.ContainerRefine
import Iposix.Proofs.DriveStack
import Iposix.Proofs.FileStore
import Iposix.Proofs.PrivateMemory
import Iposix.Core.InterruptDescriptorTable
import Iposix.Core.InterruptServiceRoutine
import Iposix.Proofs.InterruptReturn
import Iposix.Proofs.InterruptDelivery
import Iposix.Proofs.SharedPosition
import Iposix.Proofs.SyscallsOnDrive
import Iposix.Sched.Fork
import Iposix.Proofs.ForkTwice
import Iposix.Devices.Console
import Iposix.Proofs.SharedConsole
import Iposix.Fs.Namespace
import Iposix.Proofs.FatPaths
import Iposix.Fs.ContainerLookups
import Iposix.Proofs.DriveLookups
import Iposix.Proofs.PageCalls
import Iposix.Proofs.SplittedPages
