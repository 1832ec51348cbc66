import Xv6.Bits
import Xv6.ByteMem
import Xv6.Transition
import Xv6.Paths
import Xv6.Trapframe
import Xv6.Signal
import Xv6.SigPass
import Xv6.SigFrame
import Xv6.SigReturn
import Xv6.SigQueue
import Xv6.SigStep
import Xv6.SigRace
import Xv6.SysPaths
import Xv6.Machine
import Xv6.TrapBackup
import Xv6.Isolation
import Xv6.Stopped
import Xv6.Ledger
import Xv6.Family
import Xv6.ProcTable
import Xv6.ProcSched
import Xv6.ProcFamily
import Xv6.ProcFacts
import Xv6.ProcBooks
import Xv6.ProcIntegrity
import Xv6.SleepWakeup
import Xv6.ByteBlock
import Xv6.Loop
import Xv6.LogCommit
import Xv6.LogOps
import Xv6.LogSpace
import Xv6.LinkedRing
import Xv6.Bcache
import Xv6.BcacheInvariant
import Xv6.BcacheCoherence
import Xv6.Command
import Xv6.FsLayout
import Xv6.FsKernel
import Xv6.FsCalls
import Xv6.Tally
import Xv6.FsRefs
import Xv6.FsBooks
import Xv6.Allocation
import Xv6.FsVolume
import Xv6.FsBlocks
import Xv6.FsContent
import Xv6.FsInodes
import Xv6.SlotTable
import Xv6.FsDir
import Xv6.FsPath
import Xv6.FsFree
import Xv6.FsSound
import Xv6.FsNames
import Xv6.FsOwned
import Xv6.SigDisposition
import Xv6.SigCompare
import Xv6.RingBuffer
import Xv6.Pipes
import Xv6.Console
import Xv6.LinkedQueue
import Xv6.IdeQueue
import Xv6.Fuel
import Xv6.ShellLexer
import Xv6.ShellParser
import Xv6.Vm
import Xv6.VmOwners
import Xv6.VmCalls
import Xv6.VmPages
import Xv6.VmLeaks
import Xv6.VmCopy
import Xv6.VmRange
import Xv6.Exec
import Xv6.ExecLoad
import Xv6.ExecStack
import Xv6.ExecFails
import Xv6.CircularList
import Xv6.Umalloc
import Xv6.UmallocFree
import Xv6.UmallocAlloc
import Xv6.ProcKill
import Xv6.Waits
import Xv6.SigReset
import Xv6.SigFork
import Xv6.MemMove
import Xv6.Mp
import Xv6.GrepMatch
import Xv6.Grep
import Xv6.SysArgs
