import Punix.Lib.Machine
import Punix.Kernel.ProcsLaws

/-!
The lists of `Procs` as a transition system. An action is the part of a system
call between two points at which another task or an interrupt may come in. An
action is safe when what it puts into the run queue is not there yet, and safe
actions keep the laws.
-/

namespace Punix

open Lib

inductive ProcAction where
  /-- A task is started by the kernel. -/
  | exec (t : Slot)
  /-- The program of a task could not be loaded, and its slot is given back. -/
  | abort (t : Slot)
  | fork (p t : Slot)
  /-- `sched_schedule`, called in user mode or by `kmain`. -/
  | yield
  | wake (q : WaitQueueRef)
  | kill (t : Slot) (bits : BitVec 32)
  /-- The processor is back at a task that slept. -/
  | unlink (t : Slot)
  /-- A call ends, with no child reaped. -/
  | done (t : Slot)
  /-- A call ends, with the child `c` reaped. -/
  | reap (p c : Slot)
  | sleep (t : Slot) (call : WaitCall)
  | exit (t p : Slot)

namespace Procs

/-- The task has the processor, and is on no wait queue. -/
structure Acts (v : Procs) (t : Slot) : Prop where
  current : v.current = some t
  unlinked : ∀ q, t ∉ v.waitq q

def Step (v : Procs) (a : ProcAction) (v' : Procs) : Prop :=
  match a with
  | .exec t => v.free.head? = some t ∧ v' = (v.take t t).push t
  | .abort t => v.free.head? = some t ∧ v' = (v.take t t).release t
  | .fork p t => v.Acts p ∧ v.free.head? = some t ∧ v' = ((v.take t p).adopt p t).push t
  | .yield => (∀ t, v.current = some t → v.Acts t) ∧ v.schedule = some v'
  | .wake q => v' = v.wake q
  | .kill t bits => v' = v.kill t bits
  | .unlink t => v.current = some t ∧ v' = v.unlink t
  | .done t => v.Acts t ∧ v' = v.setCtl t .user
  | .reap p c =>
      v.Acts p ∧ c ∈ v.kids p ∧ v.state c = .zombie ∧ v' = (v.setCtl p .user).reap p c
  | .sleep t call =>
      v.Acts t ∧ (∀ c status, call = .childExit c status → c ∈ v.kids t ∧ v.state c ≠ .zombie) ∧
        (∀ status, call = .anyChild status → ∀ c ∈ v.kids t, v.state c ≠ .zombie) ∧
        (v.fallAsleep t call).schedule = some v'
  | .exit t p => v.Acts t ∧ v.parent t = some p ∧ (v.die t p).schedule = some v'

/-- What the action puts into the run queue is not there yet. A context switch
and a new task need no check: they queue what was running or free. -/
def Safe (v : Procs) : ProcAction → Prop
  | .wake q => v.WakeSafe q
  | .kill t _ => v.state t = .interruptible → t ∉ v.runq
  | .exit t p => v.WakeSafe (.waitExit t) ∧ (p ≠ t → v.WakeSafe (.waitChild p))
  | _ => True

variable {v v' : Procs} {a : ProcAction} {t p c : Slot} {rest : List Slot}

theorem WF.exec (h : v.WF) (hfree : v.free = t :: rest) : ((v.take t t).push t).WF := by
  obtain ⟨hpool, hrunq, -⟩ := h.of_mem_free (t := t) (by simp [hfree])
  have hcur : v.current ≠ some t := by
    intro hcur
    have hrun := h.current t hcur
    rw [hpool] at hrun
    cases hrun
  refine ⟨(h.take hfree t).push hrunq (.inl ?_) hcur, fun u hu => ?_⟩
  · simp [Procs.take, Procs.setCtl, Procs.setState]
  · have hne : u ≠ t := fun heq => hcur (heq ▸ hu)
    simpa [Procs.push, Procs.take, Procs.setCtl, Procs.setState, hne] using h.current u hu

theorem WF.abort (h : v.WF) (hfree : v.free = t :: rest) : ((v.take t t).release t).WF := by
  obtain ⟨hpool, hrunq, _, hkids, _, hswap⟩ := h.of_mem_free (t := t) (by simp [hfree])
  have hlaws : ((v.take t t).release t).Laws := by
    apply (h.take hfree t).release
    · simp [Procs.take, Procs.setCtl, Procs.setState]
    · exact hrunq
    · simp [Procs.take, Procs.setCtl]
    · exact h.ended.notAwaited t (.inr hpool)
    · exact hkids
    · exact hswap
  refine ⟨hlaws, fun u hu => ?_⟩
  have hrun := h.current u hu
  have hne : u ≠ t := by
    rintro rfl
    rw [hpool] at hrun
    cases hrun
  simpa [Procs.release, Procs.take, Procs.setCtl, Procs.setState, hne] using hrun

theorem WF.fork (h : v.WF) (hcur : v.current = some p) (hfree : v.free = t :: rest) :
    (((v.take t p).adopt p t).push t).WF := by
  obtain ⟨hpool, hrunq, _, hkids, -⟩ := h.of_mem_free (t := t) (by simp [hfree])
  have hrun := h.current p hcur
  have hne : t ≠ p := by
    rintro rfl
    rw [hpool] at hrun
    cases hrun
  have hadopt : ((v.take t p).adopt p t).Laws := by
    apply (h.take hfree p).adopt hkids
    · simp [Procs.take, Procs.setCtl, Procs.setState]
    · simp [Procs.take]
    · exact hne
    · simp [Procs.take, Procs.setCtl, Procs.setState, hne.symm, hrun]
  refine ⟨hadopt.push hrunq (.inl ?_) ?_, fun u hu => ?_⟩
  · simp [Procs.adopt, Procs.take, Procs.setCtl, Procs.setState]
  · exact fun heq => hne (Option.some.inj (heq.symm.trans hcur))
  · obtain rfl : p = u := Option.some.inj (hcur.symm.trans hu)
    simp [Procs.push, Procs.adopt, Procs.take, Procs.setCtl, Procs.setState, hne.symm, hrun]

theorem WF.reap (h : v.WF) (hp : v.Acts p) (hkid : c ∈ v.kids p) (hzombie : v.state c = .zombie) :
    ((v.setCtl p .user).reap p c).WF := by
  have huser : (v.setCtl p .user).WF := h.setCtl hp.unlinked (by simp) (by simp)
  refine ⟨huser.toLaws.reap hkid hzombie (by simp [Procs.setCtl]), fun u hu => ?_⟩
  have hrun := h.current u hu
  have hne : u ≠ c := by
    rintro rfl
    rw [hzombie] at hrun
    cases hrun
  simpa [Procs.reap, Procs.release, Procs.setCtl, Procs.setState, hne] using hrun

theorem WF.sleep {call : WaitCall} (h : v.WF) (ht : v.Acts t)
    (hcall : ∀ c status, call = .childExit c status → c ∈ v.kids t ∧ v.state c ≠ .zombie)
    (hs : (v.fallAsleep t call).schedule = some v') : v'.WF := by
  have hout : t ∉ v.runq := fun hmem => h.run.notCurrent t hmem ht.current
  have hasleep := h.fallAsleep (h.current t ht.current) hout ht.unlinked hcall
  apply hasleep.schedule _ hs
  intro u hu
  obtain rfl : t = u := Option.some.inj (ht.current.symm.trans hu)
  simp [Procs.fallAsleep, Procs.setCtl, Procs.setState, SchedState.sleeping]

theorem WF.exit (h : v.WF) (ht : v.Acts t) (hsafe : v.Safe (.exit t p))
    (hs : (v.die t p).schedule = some v') : v'.WF := by
  apply (h.die ht.current ht.unlinked hsafe.1 hsafe.2).schedule _ hs
  intro u hu
  rw [current_die] at hu
  cases hu

/-- Safe actions keep the laws. -/
theorem WF.step (h : v.WF) (hsafe : v.Safe a) (hs : v.Step a v') : v'.WF := by
  have hcons {t : Slot} (hhead : v.free.head? = some t) : v.free = t :: v.free.tail :=
    List.eq_cons_of_mem_head? hhead
  cases a with
  | exec t =>
      obtain ⟨hhead, rfl⟩ := hs
      exact h.exec (hcons hhead)
  | abort t =>
      obtain ⟨hhead, rfl⟩ := hs
      exact h.abort (hcons hhead)
  | fork p t =>
      obtain ⟨hp, hhead, rfl⟩ := hs
      exact h.fork hp.current (hcons hhead)
  | yield => exact h.schedule (fun t ht => .inl (h.current t ht)) hs.2
  | wake q =>
      subst hs
      exact h.wake hsafe
  | kill t bits =>
      subst hs
      exact h.kill bits hsafe
  | unlink t =>
      obtain ⟨_, rfl⟩ := hs
      exact h.unlink t
  | done t =>
      obtain ⟨ht, rfl⟩ := hs
      exact h.setCtl ht.unlinked (by simp) (by simp)
  | reap p c =>
      obtain ⟨hp, hkid, hzombie, rfl⟩ := hs
      exact h.reap hp hkid hzombie
  | sleep t call =>
      obtain ⟨ht, hcall, _, hs⟩ := hs
      exact h.sleep ht hcall hs
  | exit t p =>
      obtain ⟨ht, _, hs⟩ := hs
      exact h.exit ht hsafe hs

/-- The lists before the first task exists. -/
def empty : Procs where
  current := none
  swapper := none
  runq := []
  free := List.finRange maxProcessCnt
  waitq _ := []
  kids _ := []
  state _ := .pooled
  parent _ := none
  pending _ := 0
  ctl _ := .user

/-- `sched_init`: the swapper has the first slot, and is not in the run queue. -/
def boot : Procs := { empty.take 0 0 with swapper := some 0 }

theorem WF.empty : empty.WF where
  run := ⟨List.nodup_nil, by simp [Procs.empty], by simp [Procs.empty]⟩
  wait := ⟨fun _ => List.nodup_nil, by simp [Procs.empty], by simp [Procs.empty]⟩
  ended := ⟨by simp [Procs.empty], by simp [Procs.empty]⟩
  tree := ⟨fun _ => List.nodup_nil, by simp [Procs.empty], by simp [Procs.empty],
    by simp [Procs.empty]⟩
  slot := ⟨List.nodup_finRange _, by simp [Procs.empty], by simp [Procs.empty]⟩
  current := by simp [Procs.empty]

theorem WF.boot : boot.WF := by
  have hfree : Procs.empty.free = 0 :: Procs.empty.free.tail := List.eq_cons_of_mem_head? rfl
  have h := WF.empty.take hfree 0
  refine ⟨⟨⟨h.run.nodup, h.run.ready, h.run.notCurrent⟩, ⟨h.wait.nodup, h.wait.waiting,
    h.wait.childExit⟩, ⟨h.ended.notWaiting, h.ended.notAwaited⟩, ⟨h.tree.nodup, h.tree.live,
    h.tree.parent, h.tree.pooled⟩, ⟨h.slot.nodup, h.slot.pooled, ?_⟩⟩, ?_⟩
  · intro t ht
    obtain rfl : 0 = t := Option.some.inj ht
    simp [Procs.boot, Procs.take, Procs.setCtl, Procs.setState]
  · intro t ht
    cases ht

end Procs

def procMachine : Machine Procs ProcAction where
  init v := v = Procs.boot
  step := Procs.Step

/-- Runs of safe actions keep the laws. -/
theorem procMachine_wf {guard : Procs → ProcAction → Prop} {v : Procs}
    (hguard : ∀ v a, guard v a → v.Safe a) (hv : procMachine.Reaches guard v) : v.WF := by
  apply hv.invariant
  · rintro _ rfl
    exact Procs.WF.boot
  · intro v a v' h ha hs
    exact h.step (hguard v a ha) hs

end Punix
