import AdvancedXv6.FileManager.Conservation
import AdvancedXv6.FileManager.Progress
import AdvancedXv6.Kernel.Cpus
import AdvancedXv6.Kernel.CopyOnWrite
import AdvancedXv6.FileManager.Clock
import AdvancedXv6.LazySort.InPlace
import AdvancedXv6.Log.Space
import AdvancedXv6.FileSystem.Lookups
import AdvancedXv6.Pipes.Wakeups
import AdvancedXv6.ProcTable.Times
import AdvancedXv6.ProcTable.Reaping
import AdvancedXv6.FileSystem.Reads
import AdvancedXv6.Scheduler.Exclusion
import AdvancedXv6.Scheduler.Channels
import AdvancedXv6.BufferCache.Capacity
import AdvancedXv6.FileTable.References
import AdvancedXv6.InodeTable.Coherence
import AdvancedXv6.Kernel.PageFaults
import AdvancedXv6.Console.LineDiscipline
import AdvancedXv6.FileSystem.Paths
import AdvancedXv6.User.Memmove
import AdvancedXv6.User.Grep
import AdvancedXv6.User.Printf
import AdvancedXv6.Scheduler.Interrupts
