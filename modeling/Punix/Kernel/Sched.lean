import Punix.Kernel.Boot

/-!
The scheduler of `sched.c`: the run queue, context switches, and the life of a
task from `sched_kernel_exec` or `sched_fork` to `sched_exit`. A function that
can panic, or that would follow a null pointer, returns an `Option`. The
address space of a task is not part of this state: what loading a program comes
to is an argument, and copying the memory of a parent is left out.
-/

namespace Punix

open Lib

def runQueuePush (s : Scheduler) (t : Slot) : Option Scheduler :=
  let s := s.modifyTask t fun task => { task with next := none }
  let rq := s.runQueue
  if rq.len = 0 then some { s with runQueue := { first := some t, last := some t, len := 1 } }
  else
    match rq.last with
    | none => none
    | some last =>
        let s := s.modifyTask last fun task => { task with next := some t }
        some { s with runQueue := { rq with last := some t, len := rq.len + 1 } }

/-- `run_queue_poll`: the task at the front, if there is one. -/
def runQueuePoll (s : Scheduler) : Option (Scheduler × Option Slot) :=
  let rq := s.runQueue
  if rq.len = 0 then some (s, none)
  else
    match rq.first with
    | none => none
    | some t =>
        let len := rq.len - 1
        let rq : RunQueue :=
          { first := (s.task t).next, last := if len = 0 then none else rq.last, len }
        let s := ({ s with runQueue := rq } : Scheduler).modifyTask t fun task =>
          { task with next := none }
        some (s, some t)

def schedEnqueue (t : Slot) (s : Scheduler) : Option Scheduler := runQueuePush s t

/-- The state is `TASK_INTERRUPTIBLE` or `TASK_UNINTERRUPTIBLE`. -/
def Task.sleeping (task : Task) : Bool :=
  task.state = .interruptible ∨ task.state = .uninterruptible

/-- The end of `sched_schedule`: `next` gets the processor. -/
def switchTo (s : Scheduler) (next : Slot) : Scheduler :=
  let s := s.modifyTask next fun task => { task with state := .running }
  { s with current := some next, ctxt := s.ctxt + 1 }

def schedSchedule (s : Scheduler) : Option Scheduler := do
  let (s, polled) ← runQueuePoll s
  let next ← polled.or s.swapper
  match s.current with
  | none => some (switchTo s next)
  | some prev =>
      let s := s.modifyTask prev fun task => { task with ctxt := task.ctxt + 1 }
      -- nothing else to run
      if some next = s.swapper ∧ (s.task prev).state = .running then some s
      else if (s.task prev).sleeping then some (switchTo s next)
      else
        let s := s.modifyTask prev fun task => { task with state := .queued }
        let s ← if some prev ≠ s.swapper then runQueuePush s prev else some s
        some (switchTo s next)

namespace Kernel

def modifyTask (k : Kernel) (t : Slot) (f : Task → Task) : Kernel :=
  { k with sched := k.sched.modifyTask t f }

def setCtl (k : Kernel) (t : Slot) (ctl : Ctl) : Kernel :=
  { k with ctl := Function.update k.ctl t ctl }

/-- `sched_schedule`, called by a task or by `kmain`. -/
def schedule (k : Kernel) : Option Kernel :=
  (schedSchedule k.sched).map fun sched => { k with sched }

/-- `wakeup`. No queue has more entries than there are tasks. -/
def wakeup (k : Kernel) (queue : WaitQueueRef) : Option Kernel :=
  (Punix.wakeup (fun s t => (Scheduler.task s t).sleeping) schedEnqueue maxProcessCnt queue
    k.waits k.sched).map fun (waits, sched) => { k with waits, sched }

end Kernel

def signalInit (k : Kernel) (t : Slot) : Kernel :=
  let k := k.modifyTask t fun task => { task with pending := 0 }
  { k with waits := waitQueueInit (waitQueueInit k.waits (.waitExit t)) (.waitChild t) }

def ttyGet (idx : Int) : Option TtyRef :=
  if h : 0 ≤ idx ∧ idx < ttyCount then some ⟨idx.toNat, by omega⟩ else none

/-- `task_init_tty`: the terminal that is asked for, else the one of the current
task, else the active one. -/
def taskInitTty (k : Kernel) (ttyId : Int) : Option TtyRef :=
  if ttyId ≥ 0 then ttyGet ttyId
  else (k.sched.current.bind fun t => (k.sched.task t).ctty).or (some k.active)

/-- The fields that `task_kernel_exec` sets before it loads the program. -/
def kernelExecTask (k : Kernel) (t : Slot) (filename : List UInt8) (ttyId : Int) (task : Task) :
    Task :=
  { task with
    name := CharArray.ofBytes maxFilenameLen filename
    ctxt := 0
    sysCallCnt := 0
    exitStatus := 0
    state := .queued
    children := none
    parent := some t
    nextSibling := none
    ctty := taskInitTty k ttyId
    cwd := CharArray.ofBytes maxFilenameLen (cstr "/") }

/-- `task_kernel_exec`. `load` gives the end of the heap and its limit when the
program could be loaded. -/
def taskKernelExec (k : Kernel) (filename : List UInt8) (ttyId : Int)
    (load : Option (BitVec 32 × BitVec 32)) : Option (Kernel × Option Slot) :=
  if ttyId ≥ ttyCount then some (k, none)
  else if (findBin k.embeddedBins filename).isNone then some (k, none)
  else
    match taskTableAlloc k.sched with
    | none => some (k, none)
    | some (sched, t) =>
        let k : Kernel := { k with sched }
        let k := k.modifyTask t (kernelExecTask k t filename ttyId)
        let k := (signalInit k t).setCtl t .user
        match load with
        | none => (taskTableFree k.sched t).map fun sched => ({ k with sched }, none)
        | some (brk, brkLimit) =>
            some (k.modifyTask t fun task => { task with brk, brkLimit }, some t)

def schedKernelExec (k : Kernel) (filename : List UInt8) (ttyId : Int)
    (load : Option (BitVec 32 × BitVec 32)) : Option (Kernel × Int) := do
  let (k, task) ← taskKernelExec k filename ttyId load
  match task with
  | none => some (k, -1)
  | some t =>
      let sched ← schedEnqueue t k.sched
      some ({ k with sched }, (k.sched.task t).pid)

/-- `sched_init`, which panics when there is no swapper to start. -/
def schedInit (bins : List EmbeddedBin) (load : Option (BitVec 32 × BitVec 32)) : Option Kernel := do
  let (k, swapper) ← taskKernelExec (kernelInit bins) (cstr "/sbin/swapper") 0 load
  let swapper ← swapper
  some { k with sched := { k.sched with swapper := some swapper } }

/-- The swapper and a shell are embedded. -/
def shellBins : List EmbeddedBin :=
  [{ name := cstr "/sbin/swapper", image := [] }, { name := cstr "/bin/sh", image := [] }]

/-- The kernel that has booted with them. -/
def shellKernel : Kernel := (schedInit shellBins (some (0, 0))).getD (kernelInit shellBins)

/-- The fields that `sched_fork` sets. `children` is not one of them. -/
def forkTask (p : Slot) (parent child : Task) : Task :=
  { child with
    name := parent.name
    parent := some p
    nextSibling := parent.children
    brk := parent.brk
    brkLimit := parent.brkLimit
    cwd := parent.cwd
    ctty := parent.ctty
    ctxt := 0
    sysCallCnt := 0
    exitStatus := 0
    state := .queued }

def schedFork (k : Kernel) : Option (Kernel × Int) :=
  match k.sched.current with
  | none => some (k, -esrch)
  | some p =>
      match taskTableAlloc k.sched with
      | none => some (k, -enomem)
      | some (sched, t) => do
          let k : Kernel := { k with sched }
          let k := k.modifyTask t (forkTask p (k.sched.task p))
          let k := k.modifyTask p fun task => { task with children := some t }
          let k := (signalInit k t).setCtl t .user
          let sched ← schedEnqueue t k.sched
          some ({ k with sched }, (k.sched.task t).pid)

def schedKill (k : Kernel) (pid sig : Int) : Option (Kernel × Int) :=
  if sig ≤ 0 ∨ sig > maxSignals then some (k, -1)
  else
    match taskTableFindTaskByPid k.sched pid with
    | none => some (k, -1)
    | some t => do
        let bit : BitVec 32 := 1#32 <<< (sig - 1).toNat
        let k := k.modifyTask t fun task => { task with pending := task.pending ||| bit }
        let sched ←
          if (k.sched.task t).state = .interruptible then schedEnqueue t k.sched
          else some k.sched
        some ({ k with sched }, 0)

/-- `sched_exit`. The call does not return, so that the task is dead. -/
def schedExit (k : Kernel) (status : BitVec 32) : Option Kernel := do
  let t ← k.sched.current
  let k ← closeAllFiles k t
  let k := k.modifyTask t fun task => { task with exitStatus := status, state := .zombie }
  let k ← k.wakeup (.waitExit t)
  let p ← (k.sched.task t).parent
  let k ← if p ≠ t then k.wakeup (.waitChild p) else some k
  let k := { k with sched := { k.sched with current := none } }
  (k.setCtl t .dead).schedule

end Punix
