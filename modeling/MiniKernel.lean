import MiniKernel.Lib.Machine
import MiniKernel.Lib.LittleEndian
import MiniKernel.Lib.WriteLog
import MiniKernel.Memory.Paging
import MiniKernel.Memory.UserRange
import MiniKernel.Memory.Pmm
import MiniKernel.Memory.Heap
import MiniKernel.Drivers.Ata
import MiniKernel.Storage.Mfs
import MiniKernel.Storage.Ufs
import MiniKernel.Storage.Extents
import MiniKernel.Storage.UfsCrash
import MiniKernel.Storage.FileFrame
import MiniKernel.Storage.UfsBounds
import MiniKernel.Storage.Fd
import MiniKernel.Storage.Descriptors
import MiniKernel.Sched.Spawn
import MiniKernel.Sched.Kernel
import MiniKernel.Sched.WellFormed
import MiniKernel.Sched.Zombie
import MiniKernel.Sched.HaltLoop
import MiniKernel.Storage.FileData
import MiniKernel.Storage.FileMap
import MiniKernel.Lib.LinkedList
import MiniKernel.Memory.Frames
import MiniKernel.Memory.PmmInit
import MiniKernel.Memory.PageTables
import MiniKernel.Memory.AddressSpaces
import MiniKernel.Memory.Translations
import MiniKernel.Memory.Mapping
import MiniKernel.Memory.SpaceFrames
import MiniKernel.Memory.VmmInit
import MiniKernel.Memory.KernelPages
import MiniKernel.Memory.SpaceTables
import MiniKernel.Memory.PageMap
import MiniKernel.Memory.StackFaults
import MiniKernel.Memory.GuardedStacks
import MiniKernel.Memory.HeapMemory
import MiniKernel.Memory.HeapRuns
import MiniKernel.Memory.Coalescing
import MiniKernel.Memory.HeapAlignment
import MiniKernel.Ipc.Pipe
import MiniKernel.Ipc.PipeStream
import MiniKernel.Proc.Table
import MiniKernel.Proc.Descriptors
import MiniKernel.Proc.Spawning
import MiniKernel.Proc.Parts
import MiniKernel.Proc.Steps
import MiniKernel.Proc.Link
import MiniKernel.Proc.OwnThreads
import MiniKernel.Proc.Lives
import MiniKernel.Proc.Waits
import MiniKernel.Proc.WaitRuns
import MiniKernel.Proc.PipeCounts
import MiniKernel.Proc.PipeSleepers
import MiniKernel.Storage.UfsRemount
import MiniKernel.Storage.UfsFailures
import MiniKernel.Lib.Blocks
import MiniKernel.Lib.Radix
import MiniKernel.Storage.Memfs
import MiniKernel.Storage.MemfsMap
import MiniKernel.Storage.MemfsGrowth
import MiniKernel.Storage.Mkdisk
import MiniKernel.Storage.MfsBoot
import MiniKernel.Storage.ListFiles
import MiniKernel.Storage.Reboot
import MiniKernel.Storage.UserRuns
import MiniKernel.Storage.TruncatedReads
import MiniKernel.Storage.Users
import MiniKernel.Storage.UsersSave
import MiniKernel.Storage.Protection
import MiniKernel.Sched.Running
import MiniKernel.Sched.Turns
import MiniKernel.Sched.Quanta
import MiniKernel.Sched.Sleepers
import MiniKernel.Sched.SchedWait
import MiniKernel.Sched.Spawns
import MiniKernel.Proc.Pids
import MiniKernel.Proc.Parents
import MiniKernel.Drivers.Keyboard
import MiniKernel.Elf.Loader
import MiniKernel.Elf.LoaderBounds
import MiniKernel.Programs.Lang
import MiniKernel.Programs.Edit
import MiniKernel.Programs.SaveLoad
import MiniKernel.Drivers.Video
import MiniKernel.Drivers.KeyStream
import MiniKernel.Lib.Queue
import MiniKernel.Drivers.RingBuffer
import MiniKernel.Programs.Trees
import MiniKernel.Programs.LineReader
import MiniKernel.Programs.Variables
import MiniKernel.Programs.Script
import MiniKernel.Programs.EditLines
import MiniKernel.Programs.EditScreen
import MiniKernel.Storage.NameArgs
import MiniKernel.Shell.Setuid
import MiniKernel.Proc.CommandLine
import MiniKernel.Lib.Goto
import MiniKernel.Programs.Meaning
import MiniKernel.Programs.Simulation
import MiniKernel.Programs.Numerals
import MiniKernel.Programs.Assertions
import MiniKernel.Programs.SavedScripts
import MiniKernel.Arch.Cpu
import MiniKernel.Arch.ContextSwitch
import MiniKernel.Arch.Contexts
import MiniKernel.Arch.Interrupts
import MiniKernel.Arch.StackLayout
import MiniKernel.Arch.Preemption
import MiniKernel.Arch.UserMode
import MiniKernel.Arch.Resumption
import MiniKernel.Lib.Packed
import MiniKernel.Arch.DescriptorTables
import MiniKernel.Elf.Placement
import MiniKernel.Elf.Acceptance
import MiniKernel.Proc.ImageStart
import MiniKernel.Lib.Ledger
import MiniKernel.Memory.FrameOwners
import MiniKernel.Memory.SpaceRuns
