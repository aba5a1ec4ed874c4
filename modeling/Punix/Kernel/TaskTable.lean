import Punix.Kernel.State

/-!
The task table of `task_table.c`: a fixed array of slots, a ring of the free
ones, and pids that carry the slot in their low bits and a generation above.
-/

namespace Punix

open Lib

/-- `MAX_GENERATION`, `PID_MAX / MAX_PROCESS_CNT`. -/
def maxGeneration : BitVec 32 := 33554431

/-- `pid & PID_MASK`. -/
def pidSlot (pid : Int) : Slot := Fin.ofNat maxProcessCnt (pid % maxProcessCnt).toNat

/-- A task as `k_memset` and `task_table_init` leave it. -/
def Task.pooled : Task where
  pid := pidNone
  next := none
  parent := none
  children := none
  nextSibling := none
  exitStatus := 0
  cwd := CharArray.ofBytes maxFilenameLen []
  name := CharArray.ofBytes maxFilenameLen []
  ctty := none
  state := .pooled
  ctxt := 0
  brk := 0
  brkLimit := 0
  sysCallCnt := 0
  pending := 0

/-- `task_table_init`, but for the address spaces of the tasks. -/
def taskTableInit : TaskTable where
  freeRing := id
  freeHead := 0
  freeTail := BitVec.ofNat 32 maxProcessCnt
  slots _ := { task := Task.pooled, generation := 0 }

def taskTableFindTaskByPid (s : Scheduler) (pid : Int) : Option Slot :=
  if pid < 0 then none
  else
    let t := pidSlot pid
    if (s.task t).pid ≠ pid then none else some t

/-- `task_table_alloc`: the slot at the head of the ring, with a new pid. -/
def taskTableAlloc (s : Scheduler) : Option (Scheduler × Slot) :=
  let table := s.taskTable
  if table.freeHead = table.freeTail then none
  else
    let idx := table.freeRing (Ring.maskIndex maxProcessCnt table.freeHead)
    let slot := table.slots idx
    let pid := (slot.generation * 64 + BitVec.ofNat 32 idx).toInt
    let slot : TaskSlot :=
      { task := { slot.task with pid }, generation := (slot.generation + 1) &&& maxGeneration }
    some ({ s with taskTable := { table with
      slots := Function.update table.slots idx slot, freeHead := table.freeHead + 1 } }, idx)

/-- `task_table_free`; `none` is a panic. -/
def taskTableFree (s : Scheduler) (t : Slot) : Option Scheduler :=
  let table := s.taskTable
  let pid := (s.task t).pid
  if table.freeTail - table.freeHead = BitVec.ofNat 32 maxProcessCnt then none
  else if pid < 0 then none
  else if pidSlot pid ≠ t then none
  else
    let table := { table with
      freeRing := Function.update table.freeRing
        (Ring.maskIndex maxProcessCnt table.freeTail) (pidSlot pid)
      freeTail := table.freeTail + 1 }
    some (({ s with taskTable := table } : Scheduler).modifyTask t fun task =>
      { task with
        pid := pidNone, state := .pooled, children := none, parent := none, nextSibling := none })

/-- The first free slot is taken: its task gets another pid, and there are no other changes to
the tasks. -/
structure AllocatedSlot (s : Scheduler) (t : Slot) (s' : Scheduler) : Prop where
  nonempty : s.taskTable.freeHead ≠ s.taskTable.freeTail
  slot : s.taskTable.freeRing (Ring.maskIndex maxProcessCnt s.taskTable.freeHead) = t
  task : s'.task t = { s.task t with
    pid := ((s.taskTable.slots t).generation * 64 + BitVec.ofNat 32 t).toInt }
  others : ∀ u ≠ t, s'.task u = s.task u
  generation : (fun u => (s'.taskTable.slots u).generation) =
    Function.update (fun u => (s.taskTable.slots u).generation) t
      (((s.taskTable.slots t).generation + 1) &&& maxGeneration)
  ring : s'.taskTable.freeRing = s.taskTable.freeRing
  head : s'.taskTable.freeHead = s.taskTable.freeHead + 1
  tail : s'.taskTable.freeTail = s.taskTable.freeTail
  current : s'.current = s.current
  swapper : s'.swapper = s.swapper
  runQueue : s'.runQueue = s.runQueue

/-- A slot gets to the end of the ring, and its task is left as in the beginning but for some
fields. -/
structure FreedSlot (s : Scheduler) (t : Slot) (s' : Scheduler) : Prop where
  slot : pidSlot (s.task t).pid = t
  task : s'.task t = { s.task t with
    pid := pidNone, state := .pooled, children := none, parent := none, nextSibling := none }
  others : ∀ u ≠ t, s'.task u = s.task u
  generation : ∀ u, (s'.taskTable.slots u).generation = (s.taskTable.slots u).generation
  ring : s'.taskTable.freeRing = Function.update s.taskTable.freeRing
    (Ring.maskIndex maxProcessCnt s.taskTable.freeTail) t
  head : s'.taskTable.freeHead = s.taskTable.freeHead
  tail : s'.taskTable.freeTail = s.taskTable.freeTail + 1
  current : s'.current = s.current
  swapper : s'.swapper = s.swapper
  runQueue : s'.runQueue = s.runQueue

section Calls

variable {s s' : Scheduler} {t : Slot}

/-- A task is found in the slot that its pid names. -/
theorem taskTableFindTaskByPid_eq_some {pid : Int} :
    taskTableFindTaskByPid s pid = some t ↔ 0 ≤ pid ∧ pidSlot pid = t ∧ (s.task t).pid = pid := by
  unfold taskTableFindTaskByPid
  split
  · next hneg => exact iff_of_false nofun fun h => absurd h.1 (Int.not_le.mpr hneg)
  next hpos =>
  dsimp only
  split
  · next hother =>
      apply iff_of_false nofun
      rintro ⟨_, rfl, hsame⟩
      exact hother hsame
  · next hsame =>
      constructor
      · intro hslot
        obtain rfl := Option.some.inj hslot
        exact ⟨Int.not_lt.mp hpos, rfl, not_not.mp hsame⟩
      · rintro ⟨_, rfl, _⟩
        rfl

theorem pid_ne_pidNone_of_find {pid : Int} (h : taskTableFindTaskByPid s pid = some t) :
    (s.task t).pid ≠ pidNone := by
  obtain ⟨hpos, -, hsame⟩ := taskTableFindTaskByPid_eq_some.mp h
  rw [hsame, pidNone]
  omega

theorem taskTableAlloc_allocated (h : taskTableAlloc s = some (s', t)) : AllocatedSlot s t s' := by
  unfold taskTableAlloc at h
  dsimp only at h
  split at h
  · cases h
  next hne =>
  obtain ⟨rfl, rfl⟩ := Prod.mk.inj (Option.some.inj h)
  refine ⟨hne, rfl, ?_, ?_, ?_, rfl, rfl, rfl, rfl, rfl, rfl⟩
  · simp only [Scheduler.task, Function.update_self]
  · intro u hu
    simp only [Scheduler.task, Function.update_of_ne hu]
  · funext u
    simp only [Function.update_apply]
    split <;> rfl

/-- Only a field that is the pid, or is told by it, changes. -/
theorem AllocatedSlot.field {β : Type} (h : AllocatedSlot s t s') (field : Task → β)
    (hpid : ∀ (task : Task) (pid : Int), field { task with pid } = field task) (u : Slot) :
    field (s'.task u) = field (s.task u) := by
  rcases eq_or_ne u t with rfl | hne
  · rw [h.task, hpid]
  · rw [h.others u hne]

theorem taskTableFree_isSome
    (hroom : s.taskTable.freeTail - s.taskTable.freeHead ≠ BitVec.ofNat 32 maxProcessCnt)
    (hpid : 0 ≤ (s.task t).pid) (hslot : pidSlot (s.task t).pid = t) :
    ∃ s', taskTableFree s t = some s' := by
  unfold taskTableFree
  dsimp only
  rw [if_neg hroom, if_neg (Int.not_lt.mpr hpid), if_neg (not_not.mpr hslot)]
  exact ⟨_, rfl⟩

theorem taskTableFree_freed (h : taskTableFree s t = some s') : FreedSlot s t s' := by
  unfold taskTableFree at h
  dsimp only at h
  split at h
  · cases h
  split at h
  · cases h
  split at h
  · cases h
  next hslot =>
  have hslot := not_not.mp hslot
  obtain rfl := Option.some.inj h
  refine ⟨hslot, ?_, ?_, ?_, ?_, rfl, rfl, rfl, rfl, rfl⟩
  · rw [Scheduler.task_modifyTask_self]
    rfl
  · intro u hu
    rw [Scheduler.task_modifyTask_of_ne _ _ _ _ hu]
    rfl
  · intro u
    rcases eq_or_ne u t with rfl | hne
    · simp [Scheduler.modifyTask]
    · simp [Scheduler.modifyTask, hne]
  · rw [Scheduler.freeRing_modifyTask, hslot]

/-- A field that is not written stays. -/
theorem FreedSlot.field {β : Type} (h : FreedSlot s t s') (field : Task → β)
    (hsame : ∀ task : Task, field { task with
      pid := pidNone, state := .pooled, children := none, parent := none, nextSibling := none } =
        field task) (u : Slot) : field (s'.task u) = field (s.task u) := by
  rcases eq_or_ne u t with rfl | hne
  · rw [h.task, hsame]
  · rw [h.others u hne]

end Calls

end Punix
