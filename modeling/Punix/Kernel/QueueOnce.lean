import Punix.Kernel.SchedMachine

/-!
The run queue in every state of the scheduler. It is a list that holds each task
once, and no task that runs or has ended, as long as no sleeper is put into it a
second time. `sched_kill` does put it there twice: it queues a sleeper without a
change of its state, so that the next kill finds it asleep again.
-/

namespace Punix

open Lib

/-- Following `next` from `run_queue.first` visits `run_queue.len` tasks and ends
at `run_queue.last`; no task occurs twice, and none of them runs or has ended. -/
def RunQueueOk (k : Kernel) : Prop :=
  ∃ tasks : List Slot,
    Chain (fun t => (k.sched.task t).next) k.sched.runQueue.first tasks ∧
    k.sched.runQueue.len = tasks.length ∧ k.sched.runQueue.last = tasks.getLast? ∧
    tasks.Nodup ∧
    ∀ t ∈ tasks, k.sched.current ≠ some t ∧ (k.sched.task t).state ≠ .zombie ∧
      (k.sched.task t).state ≠ .pooled

theorem Represents.runQueueOk {k : Kernel} {v : Procs} (h : Represents k v) (hv : v.WF) :
    RunQueueOk k := by
  refine ⟨v.runq, h.sched.runq.chain, h.sched.runq.len, h.sched.runq.last, hv.run.nodup, ?_⟩
  intro t ht
  have hready := hv.run.ready t ht
  rw [h.sched.current, h.sched.state]
  refine ⟨hv.run.notCurrent t ht, ?_, ?_⟩ <;>
    intro hstate <;> rw [hstate] at hready <;> simp [SchedState.sleeping] at hready

/-- Runs in which every sleeper that a step puts into the run queue is new there. -/
theorem runQueueOk_of_fresh {k : Kernel} (hk : schedMachine.Reaches (fun k e => e.Fresh k) k) :
    RunQueueOk k := by
  obtain ⟨v, hv, h⟩ := schedMachine_simulation Procs.Safe (fun _ _ => id)
    (fun _ _ _ _ _ _ _ he => ⟨he, fun ha => ha.1⟩) hk
  exact h.runQueueOk (procMachine_wf (fun _ _ => id) hv)

/-- A sleeper is killed once: it is in the run queue, once. -/
theorem runQueueOk_killed :
    ∃ k, afterRun (fun k e => e.Fresh k) (readerSleeps ++ [.kill 1 15]) = some k ∧
      RunQueueOk k := by
  obtain ⟨k, hk⟩ := Option.isSome_iff_exists.mp
    (show (afterRun (fun k e => e.Fresh k) (readerSleeps ++ [.kill 1 15])).isSome by decide +kernel)
  exact ⟨k, hk, runQueueOk_of_fresh (reaches_afterRun hk)⟩

/-- A sleeper is killed twice: the run queue has two places, and the task in the
first one is linked to itself. -/
theorem runQueue_killedTwice : ¬ ∀ k, schedMachine.Reachable k → RunQueueOk k := by
  intro hall
  have hrun : (afterRun (fun _ _ => True) (readerSleeps ++ [.kill 1 15, .kill 1 15])).map
      (fun k => (k.sched.runQueue.first, k.sched.runQueue.len, (k.sched.task 1).next)) =
        some (some 1, 2, some 1) := by decide +kernel
  obtain ⟨k, hk, hqueue⟩ := Option.map_eq_some_iff.mp hrun
  simp only [Prod.mk.injEq] at hqueue
  obtain ⟨hfirst, hlen, hnext⟩ := hqueue
  obtain ⟨tasks, hchain, hcount, _, hnodup, _⟩ := hall k (reaches_afterRun hk)
  rw [hfirst] at hchain
  rw [hlen] at hcount
  obtain ⟨a, b, rfl⟩ := List.length_eq_two.mp hcount.symm
  obtain ⟨ha, hb, _⟩ := hchain
  obtain rfl := Option.some.inj ha
  obtain rfl : 1 = b := Option.some.inj (hnext.symm.trans hb)
  simp at hnodup

end Punix
