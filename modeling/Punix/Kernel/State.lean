import Punix.Kernel.Constants
import Punix.Kernel.Kutils
import Punix.Kernel.Wait

/-!
The state of the kernel: the task table and the scheduler (`sched.h`), the open
files and mounts (`files.h`, `vfs.c`), the device table (`dev_fs.c`), the
terminals (`tty.h`) and the wait queues. Two structures are stored beside the
struct they are a part of in the source, under the address of that struct: the
descriptor table `task->files` and the wait queues `task->signal.wait_child`,
`task->signal.wait_exit` and `tty->in_wait_queue`.

A kernel stack is represented by what its owner does when it runs again, which
is `Ctl`.
-/

namespace Punix

inductive SchedState where
  | pooled
  | queued
  | running
  | interruptible
  | uninterruptible
  | zombie
deriving DecidableEq

structure Task where
  pid : Int
  next : Option Slot
  parent : Option Slot
  children : Option Slot
  nextSibling : Option Slot
  exitStatus : BitVec 32
  cwd : CharArray maxFilenameLen
  name : CharArray maxFilenameLen
  ctty : Option TtyRef
  state : SchedState
  ctxt : BitVec 64
  brk : BitVec 32
  brkLimit : BitVec 32
  sysCallCnt : BitVec 64
  /-- `signal.pending`. -/
  pending : BitVec 32
deriving DecidableEq

structure TaskSlot where
  task : Task
  generation : BitVec 32

structure TaskTable where
  freeRing : Slot → Slot
  freeHead : BitVec 32
  freeTail : BitVec 32
  slots : Slot → TaskSlot

structure RunQueue where
  first : Option Slot
  last : Option Slot
  len : Nat

structure Scheduler where
  current : Option Slot
  ctxt : BitVec 64
  taskTable : TaskTable
  runQueue : RunQueue
  swapper : Option Slot

/-- The addresses of the wait queues of the kernel. -/
inductive WaitQueueRef where
  | inWaitQueue (tty : TtyRef)
  | waitChild (task : Slot)
  | waitExit (task : Slot)
deriving DecidableEq

/-- The calls of `wait_event`, with the arguments of the function around the
call that are still needed when it returns. `status` says whether the status
pointer given to `waitpid` is not null. -/
inductive WaitCall where
  | ttyInput (tty : TtyRef) (count : Nat)
  | childExit (child : Slot) (status : Bool)
  | anyChild (status : Bool)
deriving DecidableEq

/-- The statements of the loop of `wait_event`. A task at `asleep` has left the
processor inside `sched_schedule`. -/
inductive WaitPoint where
  | test
  | setState
  | add
  | schedule
  | asleep
deriving DecidableEq

/-- Where a task continues: in user mode, inside a call of `wait_event`, or, once
it has called `sched_exit`, nowhere. -/
inductive Ctl where
  | user
  | wait (point : WaitPoint) (call : WaitCall)
  | dead
deriving DecidableEq

/-- The functions that `file_ops.read` points at. -/
inductive ReadFn where
  | proc
  | bin
  | tty
deriving DecidableEq

inductive WriteFn where
  | tty
deriving DecidableEq

inductive CloseFn where
  | tty
deriving DecidableEq

inductive OpenFn where
  | tty
deriving DecidableEq

inductive GetdentsFn where
  | root
  | sys
  | proc
  | dev
  | bin
deriving DecidableEq

inductive FstatFn where
  | bin
deriving DecidableEq

structure FileOps where
  close : Option CloseFn
  read : Option ReadFn
  write : Option WriteFn
  getdents : Option GetdentsFn
  fstat : Option FstatFn
deriving DecidableEq

abbrev markerCount : Nat := 4

instance : NeZero markerCount := ⟨by decide⟩

/-- The values of a `driver_data` pointer: one of the small integers that
`tty.c` uses as markers, of which 0 is the null pointer, a terminal, or an
entry of the table of embedded programs. -/
inductive DriverData where
  | marker (n : Fin markerCount)
  | tty (t : TtyRef)
  | bin (i : Nat)
deriving DecidableEq

def DriverData.null : DriverData := .marker 0

structure File where
  idx : FileRef
  pathname : CharArray maxFilenameLen
  flags : Int
  mode : Int
  pos : BitVec 64
  fd : Int
  driverData : DriverData
  fileOps : FileOps
deriving DecidableEq

/-- `task->files`. -/
structure Files where
  slots : Fin rlimitNofile → Option FileRef

inductive Fs where
  | root
  | sys
  | proc
  | dev
  | bin
deriving DecidableEq

structure MountPoint where
  path : CharArray maxFilenameLen
  fs : Option Fs
  active : Bool
deriving DecidableEq

structure Vfs where
  freeRing : FileRef → FileRef
  freeHead : BitVec 32
  freeTail : BitVec 32
  files : FileRef → File
  mounts : Fin maxMounts → MountPoint

structure DevOps where
  openFn : Option OpenFn
  close : Option CloseFn
  read : Option ReadFn
  write : Option WriteFn
deriving DecidableEq

structure Dev where
  name : CharArray 32
  ops : DevOps
  driverData : DriverData
  active : Bool
deriving DecidableEq

structure Tty where
  inBuf : Fin ttyInputBufSize → UInt8
  inHead : BitVec 32
  inTail : BitVec 32

/-- An entry of `embedded_bins`; `image` are the bytes from `start` to `end`. -/
structure EmbeddedBin where
  name : List UInt8
  image : List UInt8
deriving DecidableEq

structure Kernel where
  sched : Scheduler
  waits : WaitHeap WaitQueueRef Slot Slot
  ctl : Slot → Ctl
  vfs : Vfs
  files : Slot → Files
  devices : Fin maxDevices → Dev
  ttys : TtyRef → Tty
  /-- `ctx.active`. -/
  active : TtyRef
  embeddedBins : List EmbeddedBin

namespace Scheduler

/-- The task at an address. -/
def task (s : Scheduler) (t : Slot) : Task := (s.taskTable.slots t).task

def modifyTask (s : Scheduler) (t : Slot) (f : Task → Task) : Scheduler :=
  { s with taskTable := { s.taskTable with
      slots := Function.update s.taskTable.slots t
        { s.taskTable.slots t with task := f (s.task t) } } }

variable (s : Scheduler) (t u : Slot) (f : Task → Task)

theorem task_modifyTask :
    (s.modifyTask t f).task u = if u = t then f (s.task t) else s.task u := by
  by_cases h : u = t
  · subst h
    simp [task, modifyTask]
  · simp [task, modifyTask, h]

@[simp] theorem task_modifyTask_self : (s.modifyTask t f).task t = f (s.task t) := by
  simp [task_modifyTask]

@[simp] theorem task_modifyTask_of_ne (h : u ≠ t) : (s.modifyTask t f).task u = s.task u := by
  simp [task_modifyTask, h]

@[simp] theorem current_modifyTask : (s.modifyTask t f).current = s.current := rfl
@[simp] theorem swapper_modifyTask : (s.modifyTask t f).swapper = s.swapper := rfl
@[simp] theorem runQueue_modifyTask : (s.modifyTask t f).runQueue = s.runQueue := rfl
@[simp] theorem freeRing_modifyTask :
    (s.modifyTask t f).taskTable.freeRing = s.taskTable.freeRing := rfl
@[simp] theorem freeHead_modifyTask :
    (s.modifyTask t f).taskTable.freeHead = s.taskTable.freeHead := rfl
@[simp] theorem freeTail_modifyTask :
    (s.modifyTask t f).taskTable.freeTail = s.taskTable.freeTail := rfl

/-- A field of all tasks after one of them has been written. -/
theorem field_modifyTask {β : Type} (field : Task → β) :
    (fun u => field ((s.modifyTask t f).task u)) =
      Function.update (fun u => field (s.task u)) t (field (f (s.task t))) := by
  funext u
  by_cases h : u = t
  · subst h
    simp
  · simp [h]

end Scheduler

end Punix
