import Punix.Lib.Machine
import Punix.Lib.Ring
import Punix.Lib.Chain
import Punix.Lib.PathName
import Punix.Lib.Memory
import Punix.Lib.X86
import Punix.Kernel.Constants
import Punix.Kernel.Kutils
import Punix.Kernel.Wait
import Punix.Kernel.State
import Punix.Fs.Path
import Punix.Fs.FsUtil
import Punix.Kernel.TaskTable
import Punix.Fs.Filesystems
import Punix.Fs.ProcFs
import Punix.Lib.Ownership
import Punix.Fs.Vfs
import Punix.Kernel.Boot
import Punix.Fs.OpenFiles
import Punix.Fs.Getdents
import Punix.Fs.ProcRead
import Punix.Kernel.Sched
import Punix.Fs.Normalize
import Punix.Fs.Resolve
import Punix.Kernel.Tty
import Punix.Kernel.Process
import Punix.Kernel.Procs
import Punix.Kernel.Exec
import Punix.Kernel.ProcsLaws
import Punix.Kernel.RunQueue
import Punix.Kernel.RunQueueCalls
import Punix.Kernel.ProcsRefine
import Punix.Kernel.CallsRefine
import Punix.Kernel.ProcsStep
import Punix.Kernel.WaitRefine
import Punix.Kernel.SchedMachine
import Punix.Kernel.QueueOnce
import Punix.Kernel.RoundRobin
import Punix.Kernel.ProcessTree
import Punix.Kernel.SignalWakes
import Punix.Kernel.ReaderMachine
import Punix.Kernel.Pids
import Punix.Kernel.TtyStream
import Punix.Kernel.ChildWaits
import Punix.Kernel.Frames
import Punix.Kernel.ExitStatus
import Punix.Kernel.Break
import Punix.Libs.Sbrk
import Punix.Arch.Mm
import Punix.Arch.MemoryMap
import Punix.Arch.ProcessWindows
import Punix.Fs.Listing
import Punix.Fs.Chdir
import Punix.Kernel.Decimal
import Punix.Fs.ProcPaths
import Punix.Fs.ProcNumbers
import Punix.Fs.ProcGrammar
import Punix.Fs.Reading
import Punix.Kernel.Arguments
import Punix.Arch.Trampoline
import Punix.Arch.ContextSwitch
import Punix.Arch.TaskStacks
import Punix.Arch.TaskSwitches
import Punix.Arch.TaskResumes
import Punix.Libs.Environ
import Punix.Arch.ConsoleAgree
import Punix.Kernel.TtyOutput
import Punix.Kernel.Waitpid
import Punix.Kernel.Printf
import Punix.Kernel.PrintfPuts
import Punix.Kernel.PrintfRuns
import Punix.Kernel.TtyRedraw
import Punix.Kernel.ArrowKeys
import Punix.Arch.ConsoleBounds
import Punix.Arch.Terminal
import Punix.Kernel.ElfLoader
import Punix.Kernel.ElfWindow
import Punix.Kernel.ElfSegments
import Punix.Fs.MountTable
import Punix.Fs.ChdirFrame
import Punix.Lib.TwoLevel
import Punix.Arch.PageTables
import Punix.Arch.Translation
import Punix.Arch.Premain
import Punix.Arch.PremainPaging
import Punix.Fs.ListedNames
import Punix.Libs.PassedVectors
import Punix.Lib.Loops
import Punix.Lib.LongDivision
import Punix.Kernel.Division
import Punix.Kernel.SignedDivision
import Punix.Kernel.DecimalText
import Punix.Arch.Clock
import Punix.Lib.Calendar
import Punix.Arch.Rtc
import Punix.Bin.Date
import Punix.Lib.Words
import Punix.Bin.Shell
import Punix.Bin.ShellVariables
import Punix.Bin.ShellEnvironment
import Punix.Bin.ShellExpansion
import Punix.Bin.ShellLines
import Punix.Bin.ShellCommands
import Punix.Bin.ShellLanguage
import Punix.Bin.ShellSession
import Punix.Bin.ShellEditing
import Punix.Kernel.WaitQueues
import Punix.Kernel.FormatPieces
import Punix.Kernel.FormatReads
import Punix.Kernel.PrintfBounded
