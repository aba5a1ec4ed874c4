import Punix.Kernel.Process

/-!
What the scheduler is for, without its pointers: the run queue, the wait queues,
the children of each task and the free slots are lists. The operations are those
of `sched.c` and `wait.c` on these lists. `Procs.WF` collects the laws of the
lists, and each operation is shown to keep them. A task is put into the run
queue by four of the operations; none of them looks whether it is there already,
so that the laws for the run queue need that as a hypothesis.
-/

namespace Punix

structure Procs where
  current : Option Slot
  swapper : Option Slot
  runq : List Slot
  free : List Slot
  waitq : WaitQueueRef → List Slot
  kids : Slot → List Slot
  state : Slot → SchedState
  parent : Slot → Option Slot
  pending : Slot → BitVec 32
  ctl : Slot → Ctl

/-- `TASK_INTERRUPTIBLE` or `TASK_UNINTERRUPTIBLE`. -/
def SchedState.sleeping (state : SchedState) : Bool :=
  state = .interruptible ∨ state = .uninterruptible

namespace Procs

def push (v : Procs) (t : Slot) : Procs := { v with runq := v.runq ++ [t] }

def setState (v : Procs) (t : Slot) (state : SchedState) : Procs :=
  { v with state := Function.update v.state t state }

def setCtl (v : Procs) (t : Slot) (ctl : Ctl) : Procs :=
  { v with ctl := Function.update v.ctl t ctl }

def wake (v : Procs) (q : WaitQueueRef) : Procs :=
  { v with
    runq := v.runq ++ (v.waitq q).filter fun t => (v.state t).sleeping
    waitq := Function.update v.waitq q [] }

def switchTo (v : Procs) (next : Slot) : Procs :=
  { v.setState next .running with current := some next }

/-- The current task hands the processor over to `next`, unless there is
nothing else to run. -/
def yieldTo (v : Procs) (next : Slot) : Procs :=
  match v.current with
  | none => v.switchTo next
  | some prev =>
      if some next = v.swapper ∧ v.state prev = .running then v
      else if (v.state prev).sleeping then v.switchTo next
      else
        let v := v.setState prev .queued
        (if some prev ≠ v.swapper then v.push prev else v).switchTo next

def schedule (v : Procs) : Option Procs :=
  (v.runq.head?.or v.swapper).map ({ v with runq := v.runq.tail } : Procs).yieldTo

def unlink (v : Procs) (t : Slot) : Procs :=
  { v with waitq := fun q => (v.waitq q).erase t }

/-- The task `t` gets on the wait queue of `call`, with its processor still. -/
def fallAsleep (v : Procs) (t : Slot) (call : WaitCall) : Procs :=
  let q := call.queue t
  { (v.setState t .interruptible).setCtl t (.wait .asleep call) with
    waitq := Function.update v.waitq q (v.waitq q ++ [t]) }

/-- The current task `t` exits, up to the switch to another task. -/
def die (v : Procs) (t p : Slot) : Procs :=
  let v := (v.setState t .zombie).wake (.waitExit t)
  let v := if p ≠ t then v.wake (.waitChild p) else v
  ({ v with current := none } : Procs).setCtl t .dead

/-- `t` is taken from the free slots for a new task with parent `p`. -/
def take (v : Procs) (t p : Slot) : Procs :=
  { (v.setState t .queued).setCtl t .user with
    free := v.free.tail
    parent := Function.update v.parent t (some p)
    pending := Function.update v.pending t 0 }

/-- `t` becomes the first child of `p`. -/
def adopt (v : Procs) (p t : Slot) : Procs :=
  { v with kids := Function.update v.kids p (t :: v.kids p) }

/-- `t` goes back to the free slots. -/
def release (v : Procs) (t : Slot) : Procs :=
  { v.setState t .pooled with
    free := v.free ++ [t]
    parent := Function.update v.parent t none
    kids := Function.update v.kids t [] }

/-- `c`, a child of `p`, is reaped. -/
def reap (v : Procs) (p c : Slot) : Procs :=
  ({ v with kids := Function.update v.kids p ((v.kids p).erase c) } : Procs).release c

def kill (v : Procs) (t : Slot) (bits : BitVec 32) : Procs :=
  let v := { v with pending := Function.update v.pending t (v.pending t ||| bits) }
  if v.state t = .interruptible then v.push t else v

/-- The run queue holds each task once, and only tasks that may be run next. -/
structure RunOk (v : Procs) : Prop where
  nodup : v.runq.Nodup
  ready : ∀ t ∈ v.runq, v.state t = .queued ∨ (v.state t).sleeping
  notCurrent : ∀ t ∈ v.runq, v.current ≠ some t

/-- A task is on a wait queue only while it sleeps in a call that waits there. -/
structure WaitOk (v : Procs) : Prop where
  nodup : ∀ q, (v.waitq q).Nodup
  waiting : ∀ q, ∀ t ∈ v.waitq q, ∃ call, v.ctl t = .wait .asleep call ∧ call.queue t = q
  childExit : ∀ t c status, v.ctl t = .wait .asleep (.childExit c status) → c ∈ v.kids t

/-- A task that has ended waits for nothing and nobody waits for it. -/
structure EndOk (v : Procs) : Prop where
  notWaiting : ∀ t, v.state t = .zombie ∨ v.state t = .pooled →
    ∀ point call, v.ctl t ≠ .wait point call
  notAwaited : ∀ t, v.state t = .zombie ∨ v.state t = .pooled → v.waitq (.waitExit t) = []

/-- The lists of children hold live tasks that name the owner of the list. -/
structure TreeOk (v : Procs) : Prop where
  nodup : ∀ p, (v.kids p).Nodup
  live : ∀ p, ∀ c ∈ v.kids p, v.state c ≠ .pooled
  parent : ∀ p, ∀ c ∈ v.kids p, v.parent c = some p ∧ c ≠ p
  pooled : ∀ p, v.state p = .pooled → v.kids p = []

/-- Free slots are pooled, and listed once. The swapper is never one of them. -/
structure SlotOk (v : Procs) : Prop where
  nodup : v.free.Nodup
  pooled : ∀ t ∈ v.free, v.state t = .pooled
  swapper : ∀ t, v.swapper = some t → v.state t ≠ .pooled ∧ v.parent t = some t

/-- The laws that hold also in the middle of an operation. -/
structure Laws (v : Procs) : Prop where
  run : v.RunOk
  wait : v.WaitOk
  ended : v.EndOk
  tree : v.TreeOk
  slot : v.SlotOk

/-- Between operations the current task is running. -/
structure WF (v : Procs) : Prop extends v.Laws where
  current : ∀ t, v.current = some t → v.state t = .running

end Procs

end Punix
