import Punix.Lib.Machine
import Punix.Kernel.Tty

/-!
Sleeping and reaping: the loop of `wait_event` (`wait.c`) as the sequence of
its statements, the two calls that sleep in it, `tty_read` and `sched_waitpid`,
and the list of children of a task. A walk along a list of children takes at
most as many steps as there are tasks; one that does not end by then never
ends, and the result is `none`.
-/

namespace Punix

open Lib

/-- The first child from `child` on that satisfies `p`. -/
def findChild (s : Scheduler) (p : Slot → Bool) : Nat → Option Slot → Option (Option Slot)
  | _, none => some none
  | 0, some _ => none
  | fuel + 1, some child =>
      if p child then some (some child) else findChild s p fuel (s.task child).nextSibling

def findChildByPid (s : Scheduler) (parent : Slot) (pid : Int) : Option (Option Slot) :=
  findChild s (fun child => (s.task child).pid = pid) maxProcessCnt (s.task parent).children

def findZombieChild (s : Scheduler) (parent : Slot) : Option (Option Slot) :=
  findChild s (fun child => (s.task child).state = .zombie) maxProcessCnt (s.task parent).children

/-- The loop that takes `child` out of the list behind `node`. -/
def unlinkSibling (s : Scheduler) (child : Slot) : Nat → Slot → Option Scheduler
  | 0, _ => none
  | fuel + 1, node =>
      match (s.task node).nextSibling with
      | none => some s
      | some next =>
          if next = child then
            let after := (s.task child).nextSibling
            some (s.modifyTask node fun task => { task with nextSibling := after })
          else unlinkSibling s child fuel next

/-- Takes `child` out of the list of children of `parent`. -/
def unlinkChild (s : Scheduler) (parent child : Slot) : Option Scheduler :=
  match (s.task parent).children with
  | none => some s
  | some first =>
      if first = child then
        let after := (s.task child).nextSibling
        some (s.modifyTask parent fun task => { task with children := after })
      else unlinkSibling s child maxProcessCnt first

/-- What a call that sleeps comes to: the bytes of a read, or the result of
`sched_waitpid` and what it stores at its status pointer. -/
inductive CallResult where
  | read (bytes : List UInt8)
  | waitpid (ret : Int) (status : Option (BitVec 32))

/-- The end of `sched_waitpid`: the zombie `child` of `parent` is reaped. -/
def reap (k : Kernel) (parent child : Slot) (status : Bool) : Option (Kernel × CallResult) := do
  let exitStatus := (k.sched.task child).exitStatus
  let sched ← unlinkChild k.sched parent child
  let result := (sched.task child).pid
  let sched ← taskTableFree sched child
  some ({ k with sched }, .waitpid result (if status then some exitStatus else none))

namespace WaitCall

/-- The queue that the call waits on, for the task `t`. -/
def queue (t : Slot) : WaitCall → WaitQueueRef
  | ttyInput tty _ => .inWaitQueue tty
  | childExit child _ => .waitExit child
  | anyChild _ => .waitChild t

/-- The condition that the call waits for. -/
def cond (k : Kernel) (t : Slot) : WaitCall → Option Bool
  | ttyInput tty _ => some (ttyInputAvailable (k.ttys tty))
  | childExit child _ => some ((k.sched.task child).state = .zombie)
  | anyChild _ => (findZombieChild k.sched t).map Option.isSome

/-- What the caller does when `wait_event` has returned. -/
def finish (k : Kernel) (t : Slot) : WaitCall → Option (Kernel × CallResult)
  | ttyInput tty count =>
      let (bytes, taken) := ttyTake (k.ttys tty) count
      some (k.setTty tty taken, .read bytes)
  | childExit child status =>
      if (k.sched.task child).state ≠ .zombie then some (k, .waitpid (-eintr) none)
      else reap k t child status
  | anyChild status => do
      match ← findZombieChild k.sched t with
      | none => some (k, .waitpid (-eintr) none)
      | some child => reap k t child status

end WaitCall

/-- A kernel, and the result of a call once it has returned: none while its task
sleeps, and none for a task that has died in the call. -/
abbrev CallStep := Kernel × Option CallResult

namespace Kernel

/-- The entry of a task is initialized and the loop begins. -/
def waitBegin (k : Kernel) (t : Slot) (call : WaitCall) : Kernel :=
  ({ k with waits := waitQueueEntryInit k.waits t t } : Kernel).setCtl t (.wait .test call)

/-- `while (!cond(ctx))`: either the call goes on behind the loop and returns to
user mode, or the body of the loop begins. -/
def waitTest (k : Kernel) (t : Slot) (call : WaitCall) : Option CallStep := do
  if ← call.cond k t then
    let (k, result) ← call.finish k t
    some (k.setCtl t .user, some result)
  else some (k.setCtl t (.wait .setState call), none)

def waitSetState (k : Kernel) (t : Slot) (call : WaitCall) : Kernel :=
  (k.modifyTask t fun task => { task with state := .interruptible }).setCtl t (.wait .add call)

def waitAdd (k : Kernel) (t : Slot) (call : WaitCall) : Kernel :=
  ({ k with waits := waitQueueAdd k.waits (call.queue t) t } : Kernel).setCtl t
    (.wait .schedule call)

def waitSchedule (k : Kernel) (t : Slot) (call : WaitCall) : Option Kernel :=
  (k.setCtl t (.wait .asleep call)).schedule

/-- What follows `sched_schedule`: the entry is removed, and a pending signal
ends the task. -/
def waitRemove (k : Kernel) (t : Slot) (call : WaitCall) : Option Kernel :=
  let k : Kernel := { k with waits := waitQueueRemove k.waits t }
  if (k.sched.task t).pending ≠ 0 then schedExit k (-1) else some (k.setCtl t (.wait .test call))

/-- One statement of the loop. -/
def waitStep (k : Kernel) (t : Slot) (call : WaitCall) : WaitPoint → Option CallStep
  | .test => k.waitTest t call
  | .setState => some (k.waitSetState t call, none)
  | .add => some (k.waitAdd t call, none)
  | .schedule => (k.waitSchedule t call).map (·, none)
  | .asleep => (k.waitRemove t call).map (·, none)

/-- One round of the loop without interruption: the call returns, or its task
goes to sleep. -/
def waitRound (k : Kernel) (t : Slot) (call : WaitCall) : Option CallStep := do
  match ← k.waitTest t call with
  | (k, some result) => some (k, some result)
  | (k, none) => (((k.waitSetState t call).waitAdd t call).waitSchedule t call).map (·, none)

/-- `wait_event` and the rest of the call that it is in. -/
def waitEvent (k : Kernel) (t : Slot) (call : WaitCall) : Option CallStep :=
  (k.waitBegin t call).waitRound t call

/-- The processor is back at a task that sleeps in `wait_event`. -/
def waitResume (k : Kernel) (t : Slot) (call : WaitCall) : Option CallStep :=
  if (k.sched.task t).pending ≠ 0 then (k.waitRemove t call).map (·, none)
  else do
    let k ← k.waitRemove t call
    k.waitRound t call

/-- `tty_read` on a terminal, with a buffer and `count` not zero. -/
def ttyRead (k : Kernel) (t : Slot) (tty : TtyRef) (count : Nat) : Option CallStep :=
  k.waitEvent t (.ttyInput tty count)

/-- `sched_waitpid`, called by `t`. `status` says whether the pointer to store
the exit status at is given. -/
def schedWaitpid (k : Kernel) (t : Slot) (pid : Int) (status : Bool) (options : BitVec 32) :
    Option CallStep := do
  let done (ret : Int) : CallStep := (k, some (.waitpid ret none))
  if options &&& ~~~wnohang ≠ 0 then some (done (-einval))
  else if pid > 0 then
    match ← findChildByPid k.sched t pid with
    | none => some (done (-echild))
    | some child =>
        if (k.sched.task child).state = .zombie then
          let (k, result) ← reap k t child status
          some (k, some result)
        else if options &&& wnohang ≠ 0 then some (done 0)
        else k.waitEvent t (.childExit child status)
  else if pid = -1 then
    match ← findZombieChild k.sched t with
    | some child =>
        let (k, result) ← reap k t child status
        some (k, some result)
    | none =>
        if (k.sched.task t).children.isNone then some (done (-echild))
        else if options &&& wnohang ≠ 0 then some (done 0)
        else k.waitEvent t (.anyChild status)
  else some (done (-einval))

end Kernel

/-- The ways in which `sched_waitpid` goes on, each with what the caller finds. -/
inductive WaitpidCase (k : Kernel) (t : Slot) (pid : Int) (status : Bool) (options : BitVec 32)
    (k' : Kernel) (r : Option CallResult) : Prop
  | invalid (hinvalid : ¬ (options &&& ~~~wnohang = 0 ∧ (0 < pid ∨ pid = -1))) (hk : k = k')
      (hr : r = some (.waitpid (-einval) none))
  | noChild (hvalid : options &&& ~~~wnohang = 0)
      (hfound : 0 < pid ∧ findChildByPid k.sched t pid = some none ∨
        pid = -1 ∧ findZombieChild k.sched t = some none ∧ (k.sched.task t).children = none)
      (hk : k = k') (hr : r = some (.waitpid (-echild) none))
  | noHang (hvalid : options &&& ~~~wnohang = 0) (hnohang : options &&& wnohang ≠ 0)
      (hfound : 0 < pid ∧ (∃ c, findChildByPid k.sched t pid = some (some c) ∧
          (k.sched.task c).state ≠ .zombie) ∨
        pid = -1 ∧ findZombieChild k.sched t = some none ∧ (k.sched.task t).children ≠ none)
      (hk : k = k') (hr : r = some (.waitpid 0 none))
  | reaps (c : Slot) (result : CallResult) (hvalid : options &&& ~~~wnohang = 0)
      (hfound : 0 < pid ∧ findChildByPid k.sched t pid = some (some c) ∧
          (k.sched.task c).state = .zombie ∨
        pid = -1 ∧ findZombieChild k.sched t = some (some c))
      (hreap : reap k t c status = some (k', result)) (hr : r = some result)
  | waitsFor (c : Slot) (hvalid : options &&& ~~~wnohang = 0) (hhang : options &&& wnohang = 0)
      (hpid : 0 < pid) (hfound : findChildByPid k.sched t pid = some (some c))
      (hlive : (k.sched.task c).state ≠ .zombie)
      (hwait : k.waitEvent t (.childExit c status) = some (k', r))
  | waitsAny (hvalid : options &&& ~~~wnohang = 0) (hhang : options &&& wnohang = 0)
      (hpid : pid = -1) (hfound : findZombieChild k.sched t = some none)
      (hchildren : (k.sched.task t).children ≠ none)
      (hwait : k.waitEvent t (.anyChild status) = some (k', r))

theorem Kernel.schedWaitpid_cases {k k' : Kernel} {t : Slot} {pid : Int} {status : Bool}
    {options : BitVec 32} {r : Option CallResult}
    (h : k.schedWaitpid t pid status options = some (k', r)) :
    WaitpidCase k t pid status options k' r := by
  have hreaped {c : Slot} (h : ((reap k t c status).bind fun x => some (x.1, some x.2)) =
      some (k', r)) : ∃ result, reap k t c status = some (k', result) ∧ r = some result := by
    obtain ⟨⟨k₁, result⟩, hreap, h⟩ := Option.bind_eq_some_iff.mp h
    obtain ⟨rfl, rfl⟩ := Prod.mk.inj (Option.some.inj h)
    exact ⟨result, hreap, rfl⟩
  unfold Kernel.schedWaitpid at h
  dsimp only at h
  split at h
  · next hoptions =>
      obtain ⟨hk, hr⟩ := Prod.mk.inj (Option.some.inj h)
      exact .invalid (fun hvalid => hoptions hvalid.1) hk hr.symm
  next hoptions =>
  have hvalid := not_not.mp hoptions
  split at h
  · next hpid =>
      obtain ⟨found, hfound, h⟩ := Option.bind_eq_some_iff.mp h
      cases found with
      | none =>
          obtain ⟨hk, hr⟩ := Prod.mk.inj (Option.some.inj h)
          exact .noChild hvalid (.inl ⟨hpid, hfound⟩) hk hr.symm
      | some c =>
          dsimp only at h
          split at h
          · next hzombie =>
              obtain ⟨result, hreap, hr⟩ := hreaped h
              exact .reaps c result hvalid (.inl ⟨hpid, hfound, hzombie⟩) hreap hr
          next hlive =>
          split at h
          · next hnohang =>
              obtain ⟨hk, hr⟩ := Prod.mk.inj (Option.some.inj h)
              exact .noHang hvalid hnohang (.inl ⟨hpid, c, hfound, hlive⟩) hk hr.symm
          · next hhang => exact .waitsFor c hvalid (not_not.mp hhang) hpid hfound hlive h
  split at h
  · next hpid =>
      obtain ⟨found, hfound, h⟩ := Option.bind_eq_some_iff.mp h
      cases found with
      | some c =>
          obtain ⟨result, hreap, hr⟩ := hreaped h
          exact .reaps c result hvalid (.inr ⟨hpid, hfound⟩) hreap hr
      | none =>
          dsimp only at h
          split at h
          · next hchildren =>
              obtain ⟨hk, hr⟩ := Prod.mk.inj (Option.some.inj h)
              exact .noChild hvalid (.inr ⟨hpid, hfound, Option.isNone_iff_eq_none.mp hchildren⟩)
                hk hr.symm
          next hchildren =>
          have hsome : (k.sched.task t).children ≠ none :=
            fun hnone => hchildren (Option.isNone_iff_eq_none.mpr hnone)
          split at h
          · next hnohang =>
              obtain ⟨hk, hr⟩ := Prod.mk.inj (Option.some.inj h)
              exact .noHang hvalid hnohang (.inr ⟨hpid, hfound, hsome⟩) hk hr.symm
          · next hhang => exact .waitsAny hvalid (not_not.mp hhang) hpid hfound hsome h
  · next hpos hany =>
      obtain ⟨hk, hr⟩ := Prod.mk.inj (Option.some.inj h)
      exact .invalid (fun hvalid => hvalid.2.elim hpos hany) hk hr.symm

end Punix
