import Punix.Lib.Waiting
import Punix.Kernel.QueueOnce

/-!
Who gets the processor next. A task in the run queue has it after the tasks before it,
whatever system calls, wakeups and interrupts come in between: nothing takes a task out
of the run queue but `sched_schedule`, which takes the first one, and what comes in gets
behind all others. `sched_schedule` may drop the swapper from the queue instead of
switching to it.
-/

namespace Punix

open Lib

namespace Procs

variable {v v' : Procs} {a : ProcAction} {t : Slot} {before behind : List Slot}

/-- A context switch takes the first task out of the queue. -/
theorem schedule_serves (hs : v.schedule = some v') (hqueue : v.runq = before ++ t :: behind)
    (hswap : v.swapper ≠ some t) (hother : v'.current ≠ some t) :
    ∃ first rest new, before = first :: rest ∧ v'.runq = rest ++ t :: (behind ++ new) ∧
      (v.current.isSome ∧ v'.current = v.current ∨ v'.current = some first) := by
  obtain ⟨next, hnext, hcase⟩ := schedule_cases hs
  cases before with
  | nil =>
      -- `t` is first, and gets the processor unless it is the swapper
      obtain rfl : t = next := by simpa [hqueue] using hnext
      rcases hcase with ⟨_, _, hstay, _, _⟩ | ⟨_, rfl⟩ | ⟨_, _, _, rfl⟩
      · exact absurd hstay.symm hswap
      · exact absurd rfl hother
      · exact absurd rfl hother
  | cons first rest =>
      obtain rfl : first = next := by simpa [hqueue] using hnext
      have htail : v.runq.tail = rest ++ t :: behind := by rw [hqueue]; rfl
      rcases hcase with ⟨prev, hprev, _, _, rfl⟩ | ⟨_, rfl⟩ | ⟨prev, _, _, rfl⟩
      · refine ⟨first, rest, [], rfl, ?_, Or.inl ⟨by rw [hprev]; rfl, rfl⟩⟩
        rw [List.append_nil]
        exact htail
      · refine ⟨first, rest, [], rfl, ?_, Or.inr rfl⟩
        rw [List.append_nil]
        exact htail
      · refine ⟨first, rest, if some prev ≠ v.swapper then [prev] else [], rfl, ?_, Or.inr rfl⟩
        split
        · change v.runq.tail ++ [prev] = _
          rw [htail, List.append_assoc, List.cons_append]
        · change v.runq.tail = _
          rw [htail, List.append_nil]

theorem swapper_schedule (hs : v.schedule = some v') : v'.swapper = v.swapper := by
  obtain ⟨next, _, hcase⟩ := schedule_cases hs
  rcases hcase with ⟨_, _, _, _, rfl⟩ | ⟨_, rfl⟩ | ⟨_, _, _, rfl⟩
  · rfl
  · rfl
  · split <;> rfl

theorem Step.swapper (hs : v.Step a v') : v'.swapper = v.swapper := by
  cases a with
  | exec t => exact hs.2 ▸ rfl
  | abort t => exact hs.2 ▸ rfl
  | fork p t => exact hs.2.2 ▸ rfl
  | yield => exact swapper_schedule hs.2
  | wake q => exact hs ▸ rfl
  | kill t bits =>
      subst hs
      unfold Procs.kill
      dsimp only
      split <;> rfl
  | unlink t => exact hs.2 ▸ rfl
  | done t => exact hs.2 ▸ rfl
  | reap p c => exact hs.2.2.2 ▸ rfl
  | sleep t call => exact (swapper_schedule hs.2.2.2).trans rfl
  | exit t p => exact (swapper_schedule hs.2.2).trans (swapper_die v t p)

/-- A task that exits puts others behind the queue. -/
theorem runq_die (v : Procs) (t p : Slot) : ∃ new, (v.die t p).runq = v.runq ++ new := by
  unfold die
  dsimp only
  split
  · exact ⟨_, List.append_assoc _ _ _⟩
  · exact ⟨_, rfl⟩

open Machine in
/-- An action that keeps the processor at its task, and puts at most something behind the queue. -/
theorem serves_of_append (new : List Slot) (hcur : v'.current = v.current)
    (hrunq : v'.runq = v.runq ++ new) : Serves Procs.current Procs.runq t v v' := by
  intro before behind hqueue _
  refine ⟨[], before, new, rfl, ?_, ?_⟩
  · rw [hrunq, hqueue, List.append_assoc, List.cons_append]
  · rw [hcur, handed_same]
    exact List.nil_sublist _

open Machine in
/-- A context switch, in a state that differs from `v` by what is behind the queue. -/
theorem serves_of_schedule {w : Procs} {new : List Slot} (hs : w.schedule = some v')
    (hcur : w.current = v.current ∨ w.current = none) (hrunq : w.runq = v.runq ++ new)
    (hswap : w.swapper ≠ some t) : Serves Procs.current Procs.runq t v v' := by
  intro before behind hqueue hother
  have hqueue' : w.runq = before ++ t :: (behind ++ new) := by
    rw [hrunq, hqueue, List.append_assoc, List.cons_append]
  obtain ⟨first, rest, new', hbefore, hrunq', hnext⟩ := schedule_serves hs hqueue' hswap hother
  refine ⟨[first], rest, new ++ new', hbefore, by rw [hrunq', List.append_assoc], ?_⟩
  rcases hnext with ⟨hsome, hsame⟩ | hfirst
  · rcases hcur with hcur | hnone
    · rw [hsame, hcur, handed_same]
      exact List.nil_sublist _
    · rw [hnone] at hsome
      cases hsome
  · rw [hfirst]
    exact handed_sublist _ _

theorem Step.serves (hs : v.Step a v') (hswap : v.swapper ≠ some t) :
    Machine.Serves Procs.current Procs.runq t v v' := by
  cases a with
  | exec u =>
      obtain ⟨_, rfl⟩ := hs
      exact serves_of_append [u] rfl rfl
  | abort u =>
      obtain ⟨_, rfl⟩ := hs
      exact serves_of_append [] rfl (List.append_nil _).symm
  | fork p u =>
      obtain ⟨_, _, rfl⟩ := hs
      exact serves_of_append [u] rfl rfl
  | yield => exact serves_of_schedule hs.2 (Or.inl rfl) (List.append_nil _).symm hswap
  | wake q =>
      subst hs
      exact serves_of_append _ rfl rfl
  | kill u bits =>
      subst hs
      unfold Procs.kill
      dsimp only
      split
      · exact serves_of_append [u] rfl rfl
      · exact serves_of_append [] rfl (List.append_nil _).symm
  | unlink u =>
      obtain ⟨_, rfl⟩ := hs
      exact serves_of_append [] rfl (List.append_nil _).symm
  | done u =>
      obtain ⟨_, rfl⟩ := hs
      exact serves_of_append [] rfl (List.append_nil _).symm
  | reap p c =>
      obtain ⟨_, _, _, rfl⟩ := hs
      exact serves_of_append [] rfl (List.append_nil _).symm
  | sleep u call =>
      exact serves_of_schedule hs.2.2.2 (Or.inl rfl) (List.append_nil _).symm hswap
  | exit u p =>
      obtain ⟨new, hnew⟩ := runq_die v u p
      exact serves_of_schedule hs.2.2 (Or.inr (current_die v u p)) hnew (by rwa [swapper_die])

end Procs

section Kernel

/-- `sched_current`. -/
def Kernel.schedCurrent (k : Kernel) : Option Slot := k.sched.current

variable {k k' : Kernel} {v : Procs} {e : SchedEvent} {t : Slot}

theorem SchedRep.runQueueTasks (h : SchedRep k.sched v) : k.runQueueTasks = v.runq :=
  h.runq.chain.walk_eq h.runq.len.ge

/-- A step of the kernel is an action on the lists that represent it, but for what is no action. -/
theorem schedStep_cases (h : Represents k v) (hv : v.WF) (hfresh : e.Fresh k)
    (hs : e.Step k k') :
    SchedRep k'.sched v ∨
      ∃ w a v', SchedRep k.sched w ∧ w.Step a v' ∧ SchedRep k'.sched v' := by
  obtain ⟨v', hrun, h'⟩ := schedMachine_refines h hv hfresh hs
  cases hrun with
  | refl => exact Or.inl h'.sched
  | tail _ hguard hlast => exact Or.inr ⟨_, _, v', hguard.2.1, hlast, h'.sched⟩

theorem schedStep_serves (h : Represents k v) (hv : v.WF) (hfresh : e.Fresh k)
    (hs : e.Step k k') (hswap : k.sched.swapper ≠ some t) :
    k'.sched.swapper = k.sched.swapper ∧
      Machine.Serves Kernel.schedCurrent Kernel.runQueueTasks t k k' := by
  rcases schedStep_cases h hv hfresh hs with hsame | ⟨w, a, v', hw, hstep, hv'⟩
  · refine ⟨hsame.swapper.trans h.sched.swapper.symm, ?_⟩
    intro before behind hqueue _
    have hcur : k'.schedCurrent = k.schedCurrent := hsame.current.trans h.sched.current.symm
    refine ⟨[], before, [], rfl, ?_, ?_⟩
    · rw [hsame.runQueueTasks, ← h.sched.runQueueTasks, hqueue, List.append_nil]
    · rw [hcur, Machine.handed_same]
      exact List.nil_sublist _
  · have hserves := hstep.serves (t := t) (hw.swapper ▸ hswap)
    refine ⟨(hv'.swapper.trans hstep.swapper).trans hw.swapper.symm, ?_⟩
    intro before behind hqueue hother
    have hcur : k.schedCurrent = w.current := hw.current
    have hcur' : k'.schedCurrent = v'.current := hv'.current
    rw [hw.runQueueTasks] at hqueue
    rw [hcur'] at hother
    obtain ⟨taken, rest, new, hbefore, hqueue', hhanded⟩ := hserves before behind hqueue hother
    refine ⟨taken, rest, new, hbefore, hv'.runQueueTasks.trans hqueue', ?_⟩
    rwa [hcur, hcur']

end Kernel

/-- Runs in which `t`, once it is queued, does not get the processor. -/
abbrev Unserved (t : Slot) : Kernel → List (Option Slot) → Kernel → Prop :=
  schedMachine.Waits (fun k e => e.Fresh k) Kernel.schedCurrent t

/-- A task in the run queue gets the processor after the tasks before it, in their order, and
before all others; there are at most 63 of them. -/
theorem queuedTask_inTurn {k k' : Kernel} {t : Slot} {before behind : List Slot}
    {served : List (Option Slot)} (hk : schedMachine.Reaches (fun k e => e.Fresh k) k)
    (hqueue : k.runQueueTasks = before ++ t :: behind) (hswap : k.sched.swapper ≠ some t)
    (hrun : Unserved t k served k') :
    (∃ taken rest new, before = taken ++ rest ∧
      k'.runQueueTasks = rest ++ t :: (behind ++ new) ∧ served.Sublist (taken.map some)) ∧
    served.length < maxProcessCnt := by
  have hrep {k : Kernel} (hk : schedMachine.Reaches (fun k e => e.Fresh k) k) :
      ∃ v : Procs, v.WF ∧ Represents k v := by
    obtain ⟨v, hv, h⟩ := schedMachine_simulation Procs.Safe (fun _ _ => id)
      (fun _ _ _ _ _ _ _ he => ⟨he, fun ha => ha.1⟩) hk
    exact ⟨v, procMachine_wf (fun _ _ => id) hv, h⟩
  obtain ⟨-, taken, rest, new, hbefore, hqueue', hserved⟩ := hrun.served
    (fun k => schedMachine.Reaches (fun k e => e.Fresh k) k ∧ k.sched.swapper ≠ some t)
    ⟨hk, hswap⟩ (fun k e k' hinv hfresh hs => by
      obtain ⟨v, hv, h⟩ := hrep hinv.1
      obtain ⟨hsame, hserves⟩ := schedStep_serves h hv hfresh hs hinv.2
      exact ⟨⟨hinv.1.step hfresh hs, hsame ▸ hinv.2⟩, hserves⟩) hqueue
  refine ⟨⟨taken, rest, new, hbefore, hqueue', hserved⟩, ?_⟩
  -- the queue holds each task once
  obtain ⟨v, hv, h⟩ := hrep hk
  have hnodup : (before ++ t :: behind).Nodup := hqueue ▸ h.sched.runQueueTasks ▸ hv.run.nodup
  have hlength := hnodup.length_le_card
  have htaken := hserved.length_le
  rw [Fintype.card_fin, hbefore] at hlength
  simp only [List.length_append, List.length_cons, List.length_map] at hlength htaken
  omega

/-- The second of two queued children waits while the first one runs. -/
theorem queuedTask_inTurn_forked :
    ∃ k k', schedMachine.Reaches (fun k e => e.Fresh k) k ∧ k.runQueueTasks = [2, 3] ∧
      Unserved 3 k [some 2] k' ∧ [some (2 : Slot)].length < maxProcessCnt := by
  have hrun : ((afterRun (fun k e => e.Fresh k)
      [.kernelExec (cstr "/bin/sh") 0 (some (0, 0)), .schedule, .fork, .fork]).any fun k =>
        k.runQueueTasks = [2, 3] ∧ k.schedCurrent = some 1 ∧ k.sched.swapper = some 0 ∧
          SchedEvent.schedule.Fresh k ∧ (SchedEvent.schedule.exec k).any fun k' =>
            k'.schedCurrent = some 2) = true := by decide +kernel
  obtain ⟨k, hk, hafter⟩ := (Option.any_eq_true _ _).mp hrun
  obtain ⟨hqueue, hcur, hswap, hfresh, hnext⟩ := of_decide_eq_true hafter
  obtain ⟨k', hk', hcur'⟩ := (Option.any_eq_true _ _).mp hnext
  have hcur' := of_decide_eq_true hcur'
  have hreach := reaches_afterRun hk
  have hwait : Unserved 3 k ([] ++ Machine.handed k.schedCurrent k'.schedCurrent) k' := by
    apply Machine.Waits.tail (Machine.Waits.refl k) hfresh (SchedEvent.step_of_exec hk')
    rw [hcur']
    decide
  rw [hcur, hcur'] at hwait
  refine ⟨k, k', hreach, hqueue, hwait, ?_⟩
  have hbehind : k.runQueueTasks = [2] ++ 3 :: [] := hqueue
  exact (queuedTask_inTurn hreach hbehind (by rw [hswap]; decide) hwait).2

end Punix
