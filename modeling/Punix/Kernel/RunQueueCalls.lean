import Punix.Kernel.RunQueue
import Punix.Lib.Fifo

/-!
`run_queue_init`, `run_queue_push` and `run_queue_poll` of `sched.c` for any
queue: the tasks stand at any addresses, and `len` is a `size_t`. Over any calls
the queue is first in, first out, and the run queue of the scheduler is one such
queue.
-/

namespace Punix

open Lib

/-- A `struct run_queue`, with the `next` fields of all tasks. -/
structure TaskQueue (α : Type) where
  next : α → Option α
  first : Option α
  last : Option α
  len : BitVec 32

/-- A `struct task *` that is not `NULL`. -/
abbrev TaskAddr : Type := { address : BitVec 32 // address ≠ 0 }

namespace TaskQueue

variable {α : Type}

def runQueueInit (rq : TaskQueue α) : TaskQueue α :=
  { rq with len := 0, first := none, last := none }

variable [DecidableEq α]

/-- `task->next = link`. -/
def setNext (rq : TaskQueue α) (task : α) (link : Option α) : TaskQueue α :=
  { rq with next := Function.update rq.next task link }

/-- `run_queue_push`, which fails where it would follow a null pointer. -/
def runQueuePush (rq : TaskQueue α) (task : α) : Option (TaskQueue α) :=
  let rq := rq.setNext task none
  if rq.len = 0 then
    some { rq with first := some task, last := some task, len := rq.len + 1 }
  else
    match rq.last with
    | none => none
    | some last =>
        let rq := rq.setNext last (some task)
        some { rq with last := some task, len := rq.len + 1 }

/-- `run_queue_poll`, with the task that it returns. -/
def runQueuePoll (rq : TaskQueue α) : Option (TaskQueue α × Option α) :=
  if rq.len = 0 then some (rq, none)
  else
    match rq.first with
    | none => none
    | some t =>
        let rq : TaskQueue α := { rq with first := rq.next t, len := rq.len - 1 }
        let rq : TaskQueue α := if rq.len = 0 then { rq with last := none } else rq
        some (rq.setNext t none, some t)

/-- A sequence of calls, with what the calls of `run_queue_poll` return. -/
def runCalls : TaskQueue α → List (FifoCall α) → Option (TaskQueue α × List (Option α))
  | rq, [] => some (rq, [])
  | rq, .push task :: rest => do
      let rq ← rq.runQueuePush task
      runCalls rq rest
  | rq, .poll :: rest => do
      let (rq, t) ← rq.runQueuePoll
      let (rq, returned) ← runCalls rq rest
      some (rq, t :: returned)

/-- The queue holds `tasks`: `first` and `last` are the ends of the chain of
their `next` fields, and `len` is their number. -/
structure Holds (rq : TaskQueue α) (tasks : List α) : Prop where
  chain : Chain rq.next rq.first tasks
  last : rq.last = tasks.getLast?
  len : rq.len.toNat = tasks.length

omit [DecidableEq α] in
theorem holds_runQueueInit (rq : TaskQueue α) : rq.runQueueInit.Holds [] where
  chain := rfl
  last := rfl
  len := rfl

section Holds

variable {rq : TaskQueue α} {tasks : List α} {task : α}

omit [DecidableEq α] in
theorem Holds.len_eq_zero (h : rq.Holds tasks) : rq.len = 0 ↔ tasks = [] := by
  rw [← BitVec.toNat_inj, h.len, ← List.length_eq_zero_iff]
  rfl

theorem runQueuePush_empty (h : rq.len = 0) :
    rq.runQueuePush task =
      some { rq.setNext task none with first := some task, last := some task, len := rq.len + 1 } :=
  if_pos h

theorem runQueuePush_behind {last : α} (h : rq.len ≠ 0) (hlast : rq.last = some last) :
    rq.runQueuePush task = some
      { (rq.setNext task none).setNext last (some task) with
        last := some task, len := rq.len + 1 } := by
  have hlen : (rq.setNext task none).len ≠ 0 := h
  have hend : (rq.setNext task none).last = some last := hlast
  simp only [runQueuePush, if_neg hlen, hend]
  rfl

theorem runQueuePush_null (h : rq.len ≠ 0) (hlast : rq.last = none) :
    rq.runQueuePush task = none := by
  have hlen : (rq.setNext task none).len ≠ 0 := h
  have hend : (rq.setNext task none).last = none := hlast
  simp only [runQueuePush, if_neg hlen, hend]

/-- A push appends, as long as `len` does not wrap. Only the links of the task
and of the last one change. -/
theorem Holds.push (h : rq.Holds tasks) (htask : task ∉ tasks)
    (hroom : tasks.length + 1 < 2 ^ 32) :
    ∃ rq', rq.runQueuePush task = some rq' ∧ rq'.Holds (tasks ++ [task]) ∧
      ∀ u ∉ tasks ++ [task], rq'.next u = rq.next u := by
  have hchain : Chain (Function.update rq.next task none) rq.first tasks :=
    h.chain.update_of_notMem htask none
  have hend : Function.update rq.next task none task = none := Function.update_self _ _ _
  have hlen : (rq.len + 1).toNat = (tasks ++ [task]).length := by
    rw [BitVec.toNat_add, h.len, List.length_append]
    exact Nat.mod_eq_of_lt hroom
  rcases List.eq_nil_or_concat tasks with rfl | ⟨front, last, hlast⟩
  · refine ⟨_, runQueuePush_empty (h.len_eq_zero.mpr rfl), ⟨?_, rfl, hlen⟩, ?_⟩
    · exact Chain.cons_iff.mpr ⟨rfl, hend⟩
    · intro u hu
      exact Function.update_of_ne (by simpa using hu) _ _
  · rw [List.concat_eq_append] at hlast
    subst hlast
    have hzero : rq.len ≠ 0 := fun hzero => by simpa using h.len_eq_zero.mp hzero
    have hlast : rq.last = some last := by simpa using h.last
    refine ⟨_, runQueuePush_behind hzero hlast, ⟨?_, by simp, hlen⟩, ?_⟩
    · exact hchain.append_last htask hend
    · intro u hu
      have hne : u ≠ task ∧ u ≠ last := by
        constructor <;> rintro rfl <;> simp at hu
      change Function.update (Function.update rq.next task none) last (some task) u = _
      rw [Function.update_of_ne hne.2, Function.update_of_ne hne.1]

theorem runQueuePoll_first {t : α} (h : rq.len ≠ 0) (hfirst : rq.first = some t) :
    rq.runQueuePoll = some
      (({ rq with
          first := rq.next t
          last := if rq.len - 1 = 0 then none else rq.last
          len := rq.len - 1 } : TaskQueue α).setNext t none, some t) := by
  simp only [runQueuePoll, if_neg h, hfirst]
  split <;> rfl

theorem runQueuePoll_null (h : rq.len ≠ 0) (hfirst : rq.first = none) :
    rq.runQueuePoll = none := by
  simp only [runQueuePoll, if_neg h, hfirst]

theorem toNat_sub_one {n : BitVec 32} (h : n ≠ 0) : (n - 1).toNat = n.toNat - 1 := by
  bv_omega

/-- A poll removes the first task, whose link is cleared. No other link changes. -/
theorem Holds.poll (h : rq.Holds tasks) :
    ∃ rq', rq.runQueuePoll = some (rq', tasks.head?) ∧ rq'.Holds tasks.tail ∧
      ∀ u, rq'.next u = if tasks.head? = some u then none else rq.next u := by
  cases tasks with
  | nil =>
      have hzero : rq.len = 0 := h.len_eq_zero.mpr rfl
      exact ⟨rq, if_pos hzero, h, fun u => rfl⟩
  | cons first rest =>
      obtain ⟨hfirst, hrest⟩ := Chain.cons_iff.mp h.chain
      have hzero : rq.len ≠ 0 := fun hzero => by simpa using h.len_eq_zero.mp hzero
      have hout : first ∉ rest := (List.nodup_cons.mp h.chain.nodup).1
      have hlen : (rq.len - 1).toNat = rest.length := by
        rw [toNat_sub_one hzero, h.len]
        rfl
      refine ⟨_, runQueuePoll_first hzero hfirst, ⟨hrest.update_of_notMem hout none, ?_, hlen⟩, ?_⟩
      · change (if rq.len - 1 = 0 then none else rq.last) = rest.getLast?
        cases rest with
        | nil =>
            have hempty : rq.len - 1 = 0 := BitVec.toNat_inj.mp hlen
            exact if_pos hempty
        | cons second rest =>
            have hmore : rq.len - 1 ≠ 0 := by
              intro hzero
              rw [hzero] at hlen
              cases hlen
            rw [if_neg hmore, h.last]
            rfl
      · intro u
        change Function.update rq.next first none u = if some first = some u then none else rq.next u
        rw [Function.update_apply]
        simp [eq_comm]

/-- The links of the `taken` tasks are cleared, unless they are in the queue again. -/
def Cleared (rq : TaskQueue α) (tasks : List α) (taken : α → Prop) : Prop :=
  ∀ t, taken t → t ∉ tasks → rq.next t = none

omit [DecidableEq α] in
theorem Cleared.push {taken : α → Prop} {rq' : TaskQueue α} (h : rq.Cleared tasks taken)
    (hnext : ∀ u ∉ tasks ++ [task], rq'.next u = rq.next u) :
    rq'.Cleared (tasks ++ [task]) taken := by
  intro t ht hout
  rw [hnext t hout]
  exact h t ht fun hmem => hout (List.mem_append_left _ hmem)

theorem Cleared.poll {taken : α → Prop} {rq' : TaskQueue α} (h : rq.Cleared tasks taken)
    (hnext : ∀ u, rq'.next u = if tasks.head? = some u then none else rq.next u) :
    rq'.Cleared tasks.tail fun t => taken t ∨ tasks.head? = some t := by
  intro t ht hout
  rw [hnext t]
  rcases Classical.em (tasks.head? = some t) with hhead | hhead
  · exact if_pos hhead
  · rw [if_neg hhead]
    apply h t (ht.resolve_right hhead)
    intro hmem
    cases tasks with
    | nil => cases hmem
    | cons first rest =>
        rcases List.mem_cons.mp hmem with rfl | hrest
        · exact hhead rfl
        · exact hout hrest

/-- The run lemma: a queue that holds `tasks` returns what a list of them would
return. -/
theorem Holds.runCalls {cs : List (FifoCall α)} {taken : α → Prop} (h : rq.Holds tasks)
    (hroom : ∀ l : List α, l.Nodup → l.length < 2 ^ 32) (hcs : Fifo.Admissible tasks cs)
    (htaken : rq.Cleared tasks taken) :
    ∃ rq', rq.runCalls cs = some (rq', (Fifo.calls tasks cs).2) ∧
      rq'.Holds (Fifo.calls tasks cs).1 ∧
      rq'.Cleared (Fifo.calls tasks cs).1 fun t => taken t ∨ some t ∈ (Fifo.calls tasks cs).2 := by
  induction cs generalizing rq tasks taken with
  | nil =>
      refine ⟨rq, rfl, h, ?_⟩
      rintro t (ht | ht) hout
      · exact htaken t ht hout
      · cases ht
  | cons c rest ih =>
      cases c with
      | push task =>
          obtain ⟨htask, hrest⟩ := hcs
          have hnodup : (tasks ++ [task]).Nodup := by
            refine List.nodup_append.mpr ⟨h.chain.nodup, List.nodup_singleton task, ?_⟩
            rintro a ha b hb rfl
            exact htask (List.mem_singleton.mp hb ▸ ha)
          have hlen : tasks.length + 1 < 2 ^ 32 := by simpa using hroom _ hnodup
          obtain ⟨rq₁, hpush, hholds, hnext⟩ := h.push htask hlen
          obtain ⟨rq', hrun, hlast, hclear⟩ := ih hholds hrest (htaken.push hnext)
          exact ⟨rq', by simp [TaskQueue.runCalls, hpush, hrun, Fifo.calls], hlast, hclear⟩
      | poll =>
          obtain ⟨rq₁, hpoll, hholds, hnext⟩ := h.poll
          obtain ⟨rq', hrun, hlast, hclear⟩ := ih hholds hcs (htaken.poll hnext)
          refine ⟨rq', by simp [TaskQueue.runCalls, hpoll, hrun, Fifo.calls], hlast, ?_⟩
          intro t ht
          apply hclear t
          rcases ht with ht | ht
          · exact Or.inl (Or.inl ht)
          · rcases List.mem_cons.mp ht with hhead | hrest
            · exact Or.inl (Or.inr hhead.symm)
            · exact Or.inr hrest

end Holds

/-- There are fewer tasks than values of `len`. -/
theorem length_lt_of_nodup {l : List TaskAddr} (h : l.Nodup) : l.length < 2 ^ 32 := by
  have hinj : Function.Injective fun t : TaskAddr => t.1.toFin :=
    fun _ _ heq => Subtype.ext (BitVec.toFin_inj.mp heq)
  have hnodup : (0 :: l.map fun t : TaskAddr => t.1.toFin).Nodup := by
    refine List.nodup_cons.mpr ⟨?_, h.map hinj⟩
    intro hmem
    obtain ⟨t, _, ht⟩ := List.mem_map.mp hmem
    exact t.2 (BitVec.toFin_inj.mp ht)
  have hcard := hnodup.length_le_card
  rw [List.length_cons, List.length_map, Fintype.card_fin] at hcard
  exact hcard

/-- From an initialised queue, and as long as no task is pushed that is in the
queue, the queue is first in, first out. -/
theorem runCalls_fifo (rq : TaskQueue TaskAddr) (cs : List (FifoCall TaskAddr))
    (hcs : Fifo.Admissible [] cs) :
    let (tasks, returned) := Fifo.calls [] cs
    ∃ rq', rq.runQueueInit.runCalls cs = some (rq', returned) ∧ rq'.Holds tasks ∧ tasks.Nodup ∧
      returned.filterMap id ++ tasks = Fifo.pushed cs ∧
      ∀ t, some t ∈ returned → t ∉ tasks → rq'.next t = none := by
  have hnone : rq.runQueueInit.Cleared [] fun _ => False := fun _ => False.elim
  obtain ⟨rq', hrun, hholds, hclear⟩ := (holds_runQueueInit rq).runCalls
    (fun _ => length_lt_of_nodup) hcs hnone
  refine ⟨rq', hrun, hholds, hholds.chain.nodup, ?_, fun t ht => hclear t (Or.inr ht)⟩
  exact Fifo.returned_append_left [] cs

/-- A task is pushed again once it has been polled, and the last poll finds
nothing. -/
theorem runCalls_fifo_again :
    let rq : TaskQueue TaskAddr := ⟨fun task => some task, none, none, 5⟩
    let t : TaskAddr := ⟨4, by decide⟩
    let u : TaskAddr := ⟨8, by decide⟩
    ∃ rq', rq.runQueueInit.runCalls [.push t, .push u, .poll, .push t, .poll, .poll, .poll] =
        some (rq', [some t, some u, some t, none]) ∧
      rq'.Holds [] ∧ rq'.next t = none := by
  intro rq t u
  obtain ⟨rq', hrun, hholds, _, _, hclear⟩ := runCalls_fifo rq
    [.push t, .push u, .poll, .push t, .poll, .poll, .poll] (by simp [Fifo.Admissible, t, u])
  exact ⟨rq', hrun, hholds, hclear t (by simp) (by simp)⟩

end TaskQueue

/-- `sched.run_queue`. -/
def Scheduler.taskQueue (s : Scheduler) : TaskQueue Slot where
  next t := (s.task t).next
  first := s.runQueue.first
  last := s.runQueue.last
  len := BitVec.ofNat 32 s.runQueue.len

section Scheduler

variable {s : Scheduler}

theorem taskQueue_len_eq_zero (hlen : s.runQueue.len < 2 ^ 32) :
    s.taskQueue.len = 0 ↔ s.runQueue.len = 0 := by
  rw [← BitVec.toNat_inj, Scheduler.taskQueue, BitVec.toNat_ofNat, Nat.mod_eq_of_lt hlen]
  rfl

theorem taskQueue_modifyTask (t : Slot) (next : Option Slot) :
    (s.modifyTask t fun task => { task with next }).taskQueue = s.taskQueue.setNext t next := by
  have hnext := s.field_modifyTask t (fun task => { task with next }) Task.next
  simp only [Scheduler.taskQueue, TaskQueue.setNext, Scheduler.runQueue_modifyTask, hnext]

theorem taskQueue_runQueuePush (t : Slot) (hlen : s.runQueue.len < 2 ^ 32) :
    (runQueuePush s t).map Scheduler.taskQueue = s.taskQueue.runQueuePush t := by
  have hzero := taskQueue_len_eq_zero hlen
  have hcount : s.taskQueue.len + 1 = BitVec.ofNat 32 (s.runQueue.len + 1) :=
    (BitVec.ofNat_add _ _).symm
  rcases eq_or_ne s.runQueue.len 0 with hempty | hsome
  · rw [TaskQueue.runQueuePush_empty (hzero.mpr hempty), ← taskQueue_modifyTask]
    simp [runQueuePush, hempty, Scheduler.taskQueue]
    rfl
  · have hlen : s.taskQueue.len ≠ 0 := mt hzero.mp hsome
    cases hlast : s.runQueue.last with
    | none =>
        rw [TaskQueue.runQueuePush_null hlen hlast]
        simp [runQueuePush, hsome, hlast]
    | some last =>
        rw [TaskQueue.runQueuePush_behind hlen hlast, ← taskQueue_modifyTask,
          ← taskQueue_modifyTask, hcount]
        simp [runQueuePush, hsome, hlast, Scheduler.taskQueue]
        rfl

theorem taskQueue_runQueuePoll (hlen : s.runQueue.len < 2 ^ 32) :
    (runQueuePoll s).map (fun (s, t) => (s.taskQueue, t)) = s.taskQueue.runQueuePoll := by
  have hzero := taskQueue_len_eq_zero hlen
  rcases eq_or_ne s.runQueue.len 0 with hempty | hsome
  · have hlen : s.taskQueue.len = 0 := hzero.mpr hempty
    simp [runQueuePoll, TaskQueue.runQueuePoll, hempty, hlen]
  · have hlen : s.taskQueue.len ≠ 0 := mt hzero.mp hsome
    cases hfirst : s.runQueue.first with
    | none =>
        rw [TaskQueue.runQueuePoll_null hlen hfirst]
        simp [runQueuePoll, hsome, hfirst]
    | some t =>
        have hcount : s.taskQueue.len - 1 = BitVec.ofNat 32 (s.runQueue.len - 1) := by
          apply BitVec.eq_of_toNat_eq
          rw [TaskQueue.toNat_sub_one hlen, Scheduler.taskQueue, BitVec.toNat_ofNat,
            BitVec.toNat_ofNat, Nat.mod_eq_of_lt (by omega), Nat.mod_eq_of_lt (by omega)]
        have hlast : s.runQueue.len - 1 = 0 ↔ s.taskQueue.len - 1 = 0 := by
          rw [hcount, ← BitVec.toNat_inj, BitVec.toNat_ofNat, Nat.mod_eq_of_lt (by omega)]
          rfl
        rw [TaskQueue.runQueuePoll_first hlen hfirst]
        simp only [runQueuePoll, hsome, hfirst, if_false, Option.map_some, taskQueue_modifyTask,
          hlast]
        rw [hcount]
        rfl

end Scheduler

end Punix
