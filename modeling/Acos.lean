import Acos.Alarm.Faults
import Acos.Alarm.Image
import Acos.Alarm.PageAccounting
import Acos.Alarm.Period
import Acos.Asm.SumArray
import Acos.Atomic.Cas
import Acos.Atomic.RwLockExclusion
import Acos.Atomic.RwLockProgress
import Acos.Atomic.SeqLockSnapshot
import Acos.Atomic.Summer
import Acos.Elf.AddrToName
import Acos.Elf.Backtrace
import Acos.Fibers.Ring
import Acos.Fibers.RoundRobin
import Acos.Fibers.TryJoin
import Acos.HugeArray.DemandPaging
import Acos.Jobserver.Tokens
import Acos.Jobserver.WalkDir
import Acos.Kernel.PipeWakeup
import Acos.Kernel.SleepLock
import Acos.Logger.LogPath
import Acos.Logger.Restart
import Acos.Malloc.Failure
import Acos.Malloc.WholeRun
import Acos.Printf.Conservative
import Acos.Printf.ZeroPadding
import Acos.Shell.Agreement
import Acos.Shell.Completion
import Acos.Shell.Deadlock
import Acos.Shell.DescriptorLeak
import Acos.Shell.StageWiring
import Acos.Sse.Equivalence
import Acos.Storage.BufferReuse
import Acos.Storage.CrashSafety
import Acos.Storage.InodeCache
import Acos.Storage.LogSpace
