import Punix.Kernel.Sched

/-!
The run queue as a list: pushing a task that is not queued appends it, polling
removes the head, and nothing but the queue and the `next` fields changes.
-/

namespace Punix

open Lib

/-- The run queue of `s` is the list `tasks`. -/
structure RunQueueRep (s : Scheduler) (tasks : List Slot) : Prop where
  chain : Chain (fun t => (s.task t).next) s.runQueue.first tasks
  len : s.runQueue.len = tasks.length
  last : s.runQueue.last = tasks.getLast?

/-- A task without its link in the run queue. -/
def Task.unlinked (task : Task) : Task := { task with next := none }

/-- The schedulers differ at most in their run queues. -/
structure SameButRunQueue (s s' : Scheduler) : Prop where
  current : s'.current = s.current
  ctxt : s'.ctxt = s.ctxt
  swapper : s'.swapper = s.swapper
  freeRing : s'.taskTable.freeRing = s.taskTable.freeRing
  freeHead : s'.taskTable.freeHead = s.taskTable.freeHead
  freeTail : s'.taskTable.freeTail = s.taskTable.freeTail
  task : ∀ t, (s'.task t).unlinked = (s.task t).unlinked

namespace SameButRunQueue

variable {s s' s'' : Scheduler}

/-- Every field but `next` is the same. -/
theorem field {β : Type} (h : SameButRunQueue s s') (f : Task → β)
    (hf : ∀ task : Task, f task.unlinked = f task) (t : Slot) : f (s'.task t) = f (s.task t) := by
  rw [← hf (s'.task t), ← hf (s.task t), h.task t]

theorem trans (h : SameButRunQueue s s') (h' : SameButRunQueue s' s'') : SameButRunQueue s s'' where
  current := h'.current.trans h.current
  ctxt := h'.ctxt.trans h.ctxt
  swapper := h'.swapper.trans h.swapper
  freeRing := h'.freeRing.trans h.freeRing
  freeHead := h'.freeHead.trans h.freeHead
  freeTail := h'.freeTail.trans h.freeTail
  task t := (h'.task t).trans (h.task t)

/-- Writing one link and the ends of the queue. -/
theorem setNext (s : Scheduler) (t : Slot) (next : Option Slot) (rq : RunQueue) :
    SameButRunQueue s { s.modifyTask t (fun task => { task with next }) with runQueue := rq } where
  current := rfl
  ctxt := rfl
  swapper := rfl
  freeRing := rfl
  freeHead := rfl
  freeTail := rfl
  task u := by
    change ((s.modifyTask t fun task => { task with next }).task u).unlinked = _
    by_cases hu : u = t
    · subst hu
      simp [Task.unlinked]
    · simp [hu]

end SameButRunQueue

variable {s : Scheduler} {tasks : List Slot} {t : Slot}

theorem RunQueueRep.congr (h : RunQueueRep s tasks) (hqueue : s'.runQueue = s.runQueue)
    (hnext : ∀ u, (s'.task u).next = (s.task u).next) : RunQueueRep s' tasks where
  chain := by
    rw [hqueue]
    exact h.chain.congr fun u _ => hnext u
  len := hqueue ▸ h.len
  last := hqueue ▸ h.last

/-- Pushing a task that is not queued appends it. -/
theorem RunQueueRep.push (h : RunQueueRep s tasks) (ht : t ∉ tasks) :
    ∃ s', runQueuePush s t = some s' ∧ RunQueueRep s' (tasks ++ [t]) ∧ SameButRunQueue s s' := by
  let s₁ := s.modifyTask t fun task => { task with next := none }
  have hnext : (fun u => (s₁.task u).next) = Function.update (fun u => (s.task u).next) t none :=
    s.field_modifyTask t _ Task.next
  have hchain : Chain (fun u => (s₁.task u).next) s.runQueue.first tasks := by
    rw [hnext]
    exact h.chain.update_of_notMem ht none
  rcases List.eq_nil_or_concat tasks with hnil | ⟨front, last, hlast⟩
  · subst hnil
    have hlen : s.runQueue.len = 0 := h.len
    have hpush : runQueuePush s t =
        some { s₁ with runQueue := { first := some t, last := some t, len := 1 } } := by
      simp [runQueuePush, hlen, s₁]
    refine ⟨_, hpush, ⟨?_, rfl, rfl⟩, SameButRunQueue.setNext s t none _⟩
    have hend : (s₁.task t).next = none := by simp [s₁]
    exact Chain.cons_iff.mpr ⟨rfl, hend⟩
  · rw [List.concat_eq_append] at hlast
    subst hlast
    have hlen : s.runQueue.len ≠ 0 := by
      rw [h.len]
      simp
    have hlast : s.runQueue.last = some last := by
      rw [h.last]
      simp
    have hpush : runQueuePush s t = some
        { s₁.modifyTask last (fun task => { task with next := some t }) with
          runQueue := { s.runQueue with last := some t, len := s.runQueue.len + 1 } } := by
      simp [runQueuePush, hlen, hlast, s₁]
    refine ⟨_, hpush, ⟨?_, by simp [h.len], by simp⟩,
      (SameButRunQueue.setNext s t none s.runQueue).trans
        (SameButRunQueue.setNext s₁ last (some t) _)⟩
    -- the last task of the queue is linked to the new one
    have hend : (s₁.task t).next = none := by simp [s₁]
    have hlinked := hchain.append_last ht hend
    have hupdate := s₁.field_modifyTask last (fun task => { task with next := some t }) Task.next
    change Chain (fun u => ((s₁.modifyTask last fun task =>
      { task with next := some t }).task u).next) _ _
    rw [hupdate]
    exact hlinked

/-- Polling removes the first task. -/
theorem RunQueueRep.poll (h : RunQueueRep s tasks) :
    ∃ s', runQueuePoll s = some (s', tasks.head?) ∧ RunQueueRep s' tasks.tail ∧
      SameButRunQueue s s' := by
  cases tasks with
  | nil =>
      have hlen : s.runQueue.len = 0 := h.len
      refine ⟨s, by simp [runQueuePoll, hlen], h, ?_⟩
      exact ⟨rfl, rfl, rfl, rfl, rfl, rfl, fun _ => rfl⟩
  | cons first rest =>
      obtain ⟨hfirst, hrest⟩ := Chain.cons_iff.mp h.chain
      have hlen : s.runQueue.len = rest.length + 1 := h.len
      have hout : first ∉ rest := (List.nodup_cons.mp h.chain.nodup).1
      let rq : RunQueue :=
        { first := (s.task first).next
          last := if rest.length = 0 then none else s.runQueue.last
          len := rest.length }
      have hpoll : runQueuePoll s = some
          ({ s.modifyTask first (fun task => { task with next := none }) with runQueue := rq },
            some first) := by
        simp only [runQueuePoll, hfirst, hlen]
        rfl
      refine ⟨_, hpoll, ⟨?_, rfl, ?_⟩, SameButRunQueue.setNext s first none rq⟩
      · change Chain (fun u => ((s.modifyTask first fun task =>
          { task with next := none }).task u).next) (s.task first).next rest
        rw [s.field_modifyTask first (fun task => { task with next := none }) Task.next]
        exact hrest.update_of_notMem hout none
      · cases rest with
        | nil => rfl
        | cons second rest => simpa [rq] using h.last

end Punix
