import GwOS.Kernel.Lists
import GwOS.Lib.Links
import GwOS.Filesystem.ChainSurgery
import GwOS.Filesystem.DirSlots
import GwOS.Filesystem.ShortNames
import GwOS.Lib.Scan
import GwOS.Lib.Format
import GwOS.Lib.Stdio
import GwOS.Lib.CString
import GwOS.Lib.Numeral
import GwOS.Kernel.PageTable
import GwOS.Kernel.Supply
import GwOS.Kernel.ByteStore
import GwOS.Kernel.Search
import GwOS.Kernel.Exhaustion
import GwOS.Kernel.Slots
import GwOS.Kernel.Undo
import GwOS.Userprog.Reap
import GwOS.Userprog.LoadRun
import GwOS.Userprog.LoadSafety
import GwOS.Userprog.LoadedProgram
import GwOS.Filesystem.Integrity
import GwOS.Filesystem.Agreement
import GwOS.Filesystem.OpenFiles
import GwOS.Filesystem.Prompt
import GwOS.Filesystem.Sizes
import GwOS.Filesystem.Clusters
import GwOS.Filesystem.WorkingDir
import GwOS.Filesystem.Slots
import GwOS.Device.Keyboard
import GwOS.Device.IdeChannel
import GwOS.Userprog.Exec
import GwOS.Userprog.Accesses
import GwOS.Kernel.Overrun
import GwOS.Userprog.AddressSpace
import GwOS.Userprog.Separation
import GwOS.Userprog.RoundTrip
import GwOS.Userprog.Marks
import GwOS.Kernel.Heap
import GwOS.Lib.Slab
import GwOS.Kernel.Blocks
import GwOS.Userprog.MallocCall
import GwOS.Userprog.Spans
import GwOS.Userprog.HeapCalls
import GwOS.Userprog.KernelHeap
import GwOS.Userprog.ForkFailure
import GwOS.Userprog.WaitCall
import GwOS.Userprog.ProcessNames
import GwOS.Filesystem.Missing
import GwOS.Device.Console
import GwOS.Device.Timer
import GwOS.Device.Partition
import GwOS.Filesystem.Removal
import GwOS.Filesystem.Concat
import GwOS.Filesystem.Growth
import GwOS.Filesystem.Refusal
import GwOS.Filesystem.Text
import GwOS.Filesystem.Buffers
import GwOS.Filesystem.Cat
import GwOS.Filesystem.Mount
import GwOS.Filesystem.Malformed
import GwOS.Filesystem.AbsolutePath
import GwOS.Lib.Ia32
import GwOS.Kernel.Entry
import GwOS.Thread.Switch
import GwOS.Thread.Coroutines
import GwOS.Userprog.UserMode
import GwOS.Thread.Turns
import GwOS.Lib.Sections
import GwOS.Thread.LockedCalls
import GwOS.Device.ConsoleLock
