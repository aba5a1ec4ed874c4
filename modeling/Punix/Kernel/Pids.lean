import Punix.Lib.Machine
import Punix.Kernel.Boot

/-!
The pids of the task table over all histories. A pid is the slot in its low
bits and, above them, how often the slot has been allocated before, modulo
`MAX_GENERATION + 1`. The invariant relates the ring of free slots, the
generations and the pids to the history of the allocations and frees.
-/

namespace Punix

open Lib

/-- `MAX_GENERATION + 1`. -/
def generations : Nat := 2 ^ 25

/-- What has been asked of the task table and what it answered. `other` is
everything else that the kernel does: it does not touch the table or a pid. -/
inductive TableEvent where
  | alloc (t : Slot) (pid : Int)
  | exhausted
  | free (t : Slot)
  | other
deriving DecidableEq

/-- The pid that each allocated slot has been given. -/
def heldPid : List TableEvent → Slot → Option Int
  | [] => fun _ => none
  | .alloc t pid :: log => Function.update (heldPid log) t (some pid)
  | .free t :: log => Function.update (heldPid log) t none
  | .exhausted :: log => heldPid log
  | .other :: log => heldPid log

def TableEvent.allocates (t : Slot) : TableEvent → Bool
  | .alloc u _ => u = t
  | _ => false

/-- An allocation of `t` under a pid other than `pid`. -/
def TableEvent.allocatesOther (t : Slot) (pid : Int) : TableEvent → Bool
  | .alloc u p => u = t ∧ p ≠ pid
  | _ => false

def allocCount (t : Slot) (log : List TableEvent) : Nat := log.countP (TableEvent.allocates t)

/-- The pid of the `n`-th allocation of `t`, counted from zero. -/
def pidAt (t : Slot) (n : Nat) : Int := ((n % generations * maxProcessCnt + t : Nat) : Int)

/-- The slots between the two counters of the ring. -/
def freeSlots (s : Scheduler) : List Slot :=
  Ring.window s.taskTable.freeRing s.taskTable.freeHead s.taskTable.freeTail

/-- The ring, the generations and the pids are the same. -/
structure SameTable (s s' : Scheduler) : Prop where
  ring : s'.taskTable.freeRing = s.taskTable.freeRing
  head : s'.taskTable.freeHead = s.taskTable.freeHead
  tail : s'.taskTable.freeTail = s.taskTable.freeTail
  generation : ∀ t, (s'.taskTable.slots t).generation = (s.taskTable.slots t).generation
  pid : ∀ t, (s'.task t).pid = (s.task t).pid

/-- Only an allocated task is freed. -/
def TableEvent.Step (s : Scheduler) (log : List TableEvent) : TableEvent → Scheduler → Prop
  | .alloc t pid, s' => taskTableAlloc s = some (s', t) ∧ (s'.task t).pid = pid
  | .exhausted, s' => taskTableAlloc s = none ∧ s' = s
  | .free t, s' => heldPid log t ≠ none ∧ taskTableFree s t = some s'
  | .other, s' => SameTable s s'

/-- The task table from `task_table_init` on, with the history beside it. -/
def tableMachine : Machine (Scheduler × List TableEvent) TableEvent where
  init x := x.1.taskTable = taskTableInit ∧ x.2 = []
  step x e y := e.Step x.1 x.2 y.1 ∧ y.2 = e :: x.2

theorem pidAt_inj {t u : Slot} {n m : Nat} (h : pidAt t n = pidAt u m) :
    t = u ∧ n % generations = m % generations := by
  have ht : t.val < 64 := t.isLt
  have hu : u.val < 64 := u.isLt
  simp only [pidAt, maxProcessCnt, Nat.cast_inj] at h
  exact ⟨Fin.ext (by omega), by omega⟩

theorem pidAt_range (t : Slot) (n : Nat) : 0 ≤ pidAt t n ∧ pidAt t n ≤ 2147483647 := by
  have ht : t.val < 64 := t.isLt
  have hn : n % generations < 2 ^ 25 := Nat.mod_lt n (by decide)
  simp only [pidAt, maxProcessCnt]
  omega

@[simp] theorem pidSlot_pidAt (t : Slot) (n : Nat) : pidSlot (pidAt t n) = t := by
  have ht : t.val < 64 := t.isLt
  apply Fin.ext
  simp only [pidSlot, pidAt, maxProcessCnt, Fin.ofNat]
  omega

/-- The arithmetic of `task_table_alloc` does not overflow. -/
theorem toInt_generation_mul (t : Slot) (n : Nat) :
    (BitVec.ofNat 32 (n % generations) * 64 + BitVec.ofNat 32 t).toInt = pidAt t n := by
  have ht : t.val < 64 := t.isLt
  have hn : n % generations < 2 ^ 25 := Nat.mod_lt n (by decide)
  have h64 : (64 : BitVec 32).toNat = 64 := rfl
  have hval : (BitVec.ofNat 32 (n % generations) * 64 + BitVec.ofNat 32 t).toNat =
      n % generations * 64 + t := by
    simp only [BitVec.toNat_add, BitVec.toNat_mul, BitVec.toNat_ofNat, h64]
    omega
  rw [BitVec.toInt_eq_toNat_of_lt (by omega), hval]
  rfl

theorem generation_succ (n : Nat) :
    (BitVec.ofNat 32 (n % generations) + 1) &&& maxGeneration =
      BitVec.ofNat 32 ((n + 1) % generations) := by
  have hn : n % generations < 2 ^ 25 := Nat.mod_lt n (by decide)
  have h1 : (1 : BitVec 32).toNat = 1 := rfl
  have hmask : maxGeneration.toNat = 2 ^ 25 - 1 := rfl
  apply BitVec.eq_of_toNat_eq
  rw [BitVec.toNat_and, hmask, Nat.and_two_pow_sub_one_eq_mod, BitVec.toNat_add,
    BitVec.toNat_ofNat, BitVec.toNat_ofNat, h1]
  simp only [generations] at *
  omega

/-- The slot at the head of the ring gets the pid of its generation, and its
generation goes up by one. -/
theorem taskTableAlloc_eq_some {s s' : Scheduler} {t : Slot}
    (h : taskTableAlloc s = some (s', t)) :
    freeSlots s = t :: freeSlots s' ∧
      (fun u => (s'.task u).pid) = Function.update (fun u => (s.task u).pid) t
        ((s.taskTable.slots t).generation * 64 + BitVec.ofNat 32 t).toInt ∧
      (fun u => (s'.taskTable.slots u).generation) =
        Function.update (fun u => (s.taskTable.slots u).generation) t
          (((s.taskTable.slots t).generation + 1) &&& maxGeneration) := by
  have halloc := taskTableAlloc_allocated h
  have hwindow := Ring.window_pop s.taskTable.freeRing halloc.nonempty
  refine ⟨?_, ?_, halloc.generation⟩
  · rw [freeSlots, freeSlots, halloc.ring, halloc.head, halloc.tail, hwindow, halloc.slot]
  · funext u
    rcases eq_or_ne u t with rfl | hne
    · rw [Function.update_self, halloc.task]
    · rw [Function.update_of_ne hne, halloc.others u hne]

theorem taskTableAlloc_cwd {s s' : Scheduler} {t : Slot}
    (h : taskTableAlloc s = some (s', t)) (u : Slot) : (s'.task u).cwd = (s.task u).cwd :=
  (taskTableAlloc_allocated h).field Task.cwd (fun _ _ => rfl) u

theorem Scheduler.sameTable_modifyTask (s : Scheduler) (t : Slot) {f : Task → Task}
    (hpid : (f (s.task t)).pid = (s.task t).pid) : SameTable s (s.modifyTask t f) := by
  refine ⟨rfl, rfl, rfl, fun u => ?_, fun u => ?_⟩
  · by_cases hu : u = t
    · subst hu
      simp [Scheduler.modifyTask]
    · simp [Scheduler.modifyTask, hu]
  · rw [Scheduler.task_modifyTask]
    split_ifs with hu
    · rw [hu, hpid]
    · rfl

/-- A task with a pid of its slot can be freed while the ring has room. -/
theorem taskTableFree_eq {s : Scheduler} {t : Slot} (hpid : 0 ≤ (s.task t).pid)
    (hslot : pidSlot (s.task t).pid = t) (hroom : (freeSlots s).length < maxProcessCnt) :
    ∃ s', taskTableFree s t = some s' ∧ freeSlots s' = freeSlots s ++ [t] ∧
      (fun u => (s'.task u).pid) = Function.update (fun u => (s.task u).pid) t pidNone ∧
      ∀ u, (s'.taskTable.slots u).generation = (s.taskTable.slots u).generation := by
  have hlevel : (s.taskTable.freeTail - s.taskTable.freeHead).toNat < maxProcessCnt := by
    simpa [freeSlots] using hroom
  have hnotFull : s.taskTable.freeTail - s.taskTable.freeHead ≠ BitVec.ofNat 32 maxProcessCnt := by
    intro heq
    rw [heq] at hlevel
    exact absurd hlevel (by decide)
  obtain ⟨s', hs⟩ := taskTableFree_isSome hnotFull hpid hslot
  have hfreed := taskTableFree_freed hs
  refine ⟨s', hs, ?_, ?_, hfreed.generation⟩
  · rw [freeSlots, freeSlots, hfreed.ring, hfreed.head, hfreed.tail]
    exact Ring.window_push s.taskTable.freeRing _ _ t hlevel
  · funext u
    rcases eq_or_ne u t with rfl | hne
    · rw [Function.update_self, hfreed.task]
    · rw [Function.update_of_ne hne, hfreed.others u hne]

/-- The allocations of each slot have got the pids that `pidAt` says. -/
def Numbered : List TableEvent → Prop
  | [] => True
  | e :: log => (∀ t p, e = .alloc t p → p = pidAt t (allocCount t log)) ∧ Numbered log

theorem Numbered.of_append {post log : List TableEvent} (h : Numbered (post ++ log)) :
    Numbered log := by
  induction post with
  | nil => exact h
  | cons e post ih => exact ih h.2

theorem Numbered.pid_eq {post pre : List TableEvent} {t : Slot} {p : Int}
    (h : Numbered (post ++ .alloc t p :: pre)) : p = pidAt t (allocCount t pre) :=
  h.of_append.1 t p rfl

@[simp] theorem allocCount_append (t : Slot) (post pre : List TableEvent) :
    allocCount t (post ++ pre) = allocCount t post + allocCount t pre := by
  simp [allocCount]

@[simp] theorem allocCount_alloc_self (t : Slot) (p : Int) (log : List TableEvent) :
    allocCount t (.alloc t p :: log) = allocCount t log + 1 := by
  simp [allocCount, TableEvent.allocates]

theorem allocCount_cons (u : Slot) (e : TableEvent) (log : List TableEvent)
    (h : e.allocates u = false) : allocCount u (e :: log) = allocCount u log := by
  simp [allocCount, h]

/-- A heldPid pid is that of the last allocation of the slot. -/
theorem held_eq_some {log : List TableEvent} {t : Slot} {p : Int} (h : heldPid log t = some p) :
    ∃ post pre, log = post ++ .alloc t p :: pre ∧ allocCount t post = 0 := by
  induction log with
  | nil => cases h
  | cons e log ih =>
      have hstep (hlog : heldPid log t = some p) (he : e.allocates t = false) :
          ∃ post pre, e :: log = post ++ .alloc t p :: pre ∧ allocCount t post = 0 := by
        obtain ⟨post, pre, rfl, hcount⟩ := ih hlog
        exact ⟨e :: post, pre, rfl, by simpa [allocCount, he] using hcount⟩
      cases e with
      | alloc u q =>
          rcases eq_or_ne t u with rfl | hne
          · obtain rfl : q = p := by simpa [heldPid] using h
            exact ⟨[], log, rfl, rfl⟩
          · exact hstep (by simpa [heldPid, hne] using h) (by simp [TableEvent.allocates, hne.symm])
      | free u =>
          rcases eq_or_ne t u with rfl | hne
          · simp [heldPid] at h
          · exact hstep (by simpa [heldPid, hne] using h) rfl
      | exhausted => exact hstep h rfl
      | other => exact hstep h rfl

theorem Numbered.held_eq {log : List TableEvent} (h : Numbered log) {t : Slot} {p : Int}
    (hheld : heldPid log t = some p) : ∃ n, p = pidAt t n := by
  obtain ⟨post, pre, rfl, _⟩ := held_eq_some hheld
  exact ⟨_, h.pid_eq⟩

theorem Numbered.reuse_of_notMem {post mid pre : List TableEvent} {t u : Slot} {p : Int}
    (h : Numbered (post ++ .alloc u p :: (mid ++ .alloc t p :: pre)))
    (hmem : TableEvent.alloc t p ∉ mid) :
    u = t ∧ generations - 1 ≤ mid.countP (TableEvent.allocatesOther t p) := by
  have hrest := h.of_append
  have hnew := hrest.1 u p rfl
  have hold : p = pidAt t (allocCount t pre) := hrest.2.pid_eq
  obtain ⟨rfl, hmod⟩ := pidAt_inj (hnew.symm.trans hold)
  refine ⟨rfl, ?_⟩
  have hall : mid.countP (TableEvent.allocatesOther u p) = allocCount u mid := by
    apply List.countP_congr
    intro e he
    cases e with
    | alloc v q =>
        simp only [TableEvent.allocates, TableEvent.allocatesOther, decide_eq_true_eq]
        refine ⟨fun h => h.1, ?_⟩
        rintro rfl
        exact ⟨rfl, fun heq => hmem (heq ▸ he)⟩
    | exhausted => rfl
    | free v => rfl
    | other => rfl
  rw [hall]
  simp only [allocCount_append, allocCount_alloc_self] at hmod
  simp only [generations] at *
  omega

/-- Between two allocations under one pid, the same slot has been allocated
under every other pid it can have. -/
theorem Numbered.reuse {post mid pre : List TableEvent} {t u : Slot} {p : Int}
    (h : Numbered (post ++ .alloc u p :: (mid ++ .alloc t p :: pre))) :
    u = t ∧ generations - 1 ≤ mid.countP (TableEvent.allocatesOther t p) := by
  by_cases hmem : TableEvent.alloc t p ∈ mid
  · -- the allocations up to the last one under `p` are enough
    obtain ⟨newer, older, rfl, hnewer⟩ := List.eq_append_cons_of_mem hmem
    rw [List.append_assoc, List.cons_append] at h
    obtain ⟨rfl, hcount⟩ := h.reuse_of_notMem hnewer
    refine ⟨rfl, ?_⟩
    rw [List.countP_append]
    omega
  · exact h.reuse_of_notMem hmem

structure TableInv (s : Scheduler) (log : List TableEvent) : Prop where
  nodup : (freeSlots s).Nodup
  mem_free : ∀ t, t ∈ freeSlots s ↔ heldPid log t = none
  generation : ∀ t, (s.taskTable.slots t).generation =
    BitVec.ofNat 32 (allocCount t log % generations)
  pid : ∀ t, (s.task t).pid = (heldPid log t).getD pidNone
  numbered : Numbered log

theorem freeSlots_init {s : Scheduler} (h : s.taskTable = taskTableInit) :
    freeSlots s = List.ofFn id := by
  rw [freeSlots, h]
  exact Ring.window_zero id

theorem TableInv.init {s : Scheduler} (h : s.taskTable = taskTableInit) : TableInv s [] where
  nodup := by
    rw [freeSlots_init h]
    exact List.nodup_ofFn.mpr Function.injective_id
  mem_free t := by
    rw [freeSlots_init h, List.mem_ofFn]
    exact ⟨fun _ => rfl, fun _ => ⟨t, rfl⟩⟩
  generation t := by
    rw [h]
    rfl
  pid t := by
    rw [Scheduler.task, h]
    rfl
  numbered := trivial

theorem TableInv.alloc {s s' : Scheduler} {log : List TableEvent} {t : Slot}
    (h : TableInv s log) (hs : taskTableAlloc s = some (s', t)) :
    TableInv s' (.alloc t (s'.task t).pid :: log) := by
  obtain ⟨hfree, hpids, hgens⟩ := taskTableAlloc_eq_some hs
  have hnodup := hfree ▸ h.nodup
  obtain ⟨hnotMem, hnodup'⟩ := List.nodup_cons.mp hnodup
  have hpid : (s'.task t).pid = pidAt t (allocCount t log) := by
    have hat := congrFun hpids t
    rw [Function.update_self, h.generation t, toInt_generation_mul] at hat
    exact hat
  refine ⟨hnodup', ?_, ?_, ?_, ?_, h.numbered⟩
  · intro u
    have hold := h.mem_free u
    rw [hfree, List.mem_cons] at hold
    rcases eq_or_ne u t with rfl | hne
    · simp [heldPid, hnotMem]
    · simpa [heldPid, hne] using hold
  · intro u
    have hat := congrFun hgens u
    rw [hat]
    rcases eq_or_ne u t with rfl | hne
    · rw [Function.update_self, h.generation u, generation_succ, allocCount_alloc_self]
    · rw [Function.update_of_ne hne, h.generation u, allocCount_cons]
      simp [TableEvent.allocates, hne.symm]
  · intro u
    have hat := congrFun hpids u
    rcases eq_or_ne u t with rfl | hne
    · simp [heldPid]
    · rw [Function.update_of_ne hne] at hat
      rw [hat, h.pid u]
      simp [heldPid, hne]
  · rintro u p ⟨rfl, rfl⟩
    exact hpid

theorem TableInv.room {s : Scheduler} {log : List TableEvent} {t : Slot} (h : TableInv s log)
    (hheld : heldPid log t ≠ none) : (freeSlots s).length < maxProcessCnt := by
  have hnotMem : t ∉ freeSlots s := fun hmem => hheld ((h.mem_free t).mp hmem)
  have hcard := (List.nodup_cons.mpr ⟨hnotMem, h.nodup⟩).length_le_card
  simpa using hcard

/-- Freeing an allocated task does not panic. -/
theorem TableInv.free {s : Scheduler} {log : List TableEvent} {t : Slot} (h : TableInv s log)
    (hheld : heldPid log t ≠ none) :
    ∃ s', taskTableFree s t = some s' ∧ TableInv s' (.free t :: log) := by
  obtain ⟨p, hp⟩ := Option.ne_none_iff_exists'.mp hheld
  obtain ⟨n, rfl⟩ := h.numbered.held_eq hp
  have hpid : (s.task t).pid = pidAt t n := by
    rw [h.pid t, hp]
    rfl
  obtain ⟨s', hs, hfree, hpids, hgens⟩ := taskTableFree_eq (hpid ▸ (pidAt_range t n).1)
    (hpid ▸ pidSlot_pidAt t n) (h.room hheld)
  refine ⟨s', hs, ?_, ?_, ?_, ?_, ⟨fun _ _ => nofun, h.numbered⟩⟩
  · rw [hfree, List.nodup_append]
    refine ⟨h.nodup, List.nodup_singleton t, ?_⟩
    rintro u hu _ hmem rfl
    rw [List.mem_singleton.mp hmem, h.mem_free] at hu
    exact hheld hu
  · intro u
    rw [hfree, List.mem_append, List.mem_singleton, h.mem_free u]
    rcases eq_or_ne u t with rfl | hne
    · simp [heldPid]
    · simp [heldPid, hne]
  · intro u
    rw [hgens u, h.generation u, allocCount_cons]
    rfl
  · intro u
    have hat := congrFun hpids u
    rw [hat]
    rcases eq_or_ne u t with rfl | hne
    · simp [heldPid]
    · rw [Function.update_of_ne hne, h.pid u]
      simp [heldPid, hne]

theorem TableInv.congr {s s' : Scheduler} {log : List TableEvent} (h : TableInv s log)
    (hsame : SameTable s s') {e : TableEvent} (hheld : heldPid (e :: log) = heldPid log)
    (he : ∀ t, e.allocates t = false) : TableInv s' (e :: log) := by
  have hfree : freeSlots s' = freeSlots s := by
    rw [freeSlots, hsame.ring, hsame.head, hsame.tail, freeSlots]
  refine ⟨hfree ▸ h.nodup, ?_, ?_, ?_, ⟨?_, h.numbered⟩⟩
  · intro t
    rw [hfree, hheld, h.mem_free t]
  · intro t
    rw [hsame.generation t, h.generation t, allocCount_cons _ _ _ (he t)]
  · intro t
    rw [hsame.pid t, h.pid t, hheld]
  · rintro t p rfl
    simp [TableEvent.allocates] at he

theorem TableInv.step {s s' : Scheduler} {log : List TableEvent} {e : TableEvent}
    (h : TableInv s log) (hs : e.Step s log s') : TableInv s' (e :: log) := by
  cases e with
  | alloc t p =>
      obtain ⟨hs, rfl⟩ := hs
      exact h.alloc hs
  | exhausted =>
      obtain ⟨_, rfl⟩ := hs
      exact h.congr ⟨rfl, rfl, rfl, fun _ => rfl, fun _ => rfl⟩ rfl fun _ => rfl
  | free t =>
      obtain ⟨hheld, hs⟩ := hs
      obtain ⟨s₁, hs₁, hinv⟩ := h.free hheld
      obtain rfl : s₁ = s' := Option.some.inj (hs₁.symm.trans hs)
      exact hinv
  | other => exact h.congr hs rfl fun _ => rfl

/-- What the rest of the kernel relies on. -/
structure TaskTableOk (s : Scheduler) (log : List TableEvent) : Prop where
  /-- The ring holds exactly the free slots, each once. -/
  free_nodup : (freeSlots s).Nodup
  mem_free : ∀ t, t ∈ freeSlots s ↔ heldPid log t = none
  pid_eq : ∀ t p, heldPid log t = some p → (s.task t).pid = p ∧ 0 ≤ p ∧ p ≤ 2147483647
  pid_unique : ∀ t u p, heldPid log t = some p → heldPid log u = some p → t = u
  find_iff : ∀ p t, taskTableFindTaskByPid s p = some t ↔ heldPid log t = some p
  free_ok : ∀ t, heldPid log t ≠ none → (taskTableFree s t).isSome
  /-- A pid that was given back comes again only from its slot, and only after
  the slot has been allocated under every other pid it can have. -/
  not_reused : ∀ newest u p between t oldest,
    log = newest ++ .alloc u p :: (between ++ .free t :: oldest) → heldPid oldest t = some p →
      u = t ∧ generations - 1 ≤ between.countP (TableEvent.allocatesOther t p)

theorem TableInv.ok {s : Scheduler} {log : List TableEvent} (h : TableInv s log) :
    TaskTableOk s log where
  free_nodup := h.nodup
  mem_free := h.mem_free
  pid_eq t p hheld := by
    obtain ⟨n, rfl⟩ := h.numbered.held_eq hheld
    refine ⟨?_, pidAt_range t n⟩
    rw [h.pid t, hheld]
    rfl
  pid_unique t u p ht hu := by
    obtain ⟨n, rfl⟩ := h.numbered.held_eq ht
    obtain ⟨m, hm⟩ := h.numbered.held_eq hu
    exact (pidAt_inj hm).1
  find_iff p t := by
    rw [taskTableFindTaskByPid_eq_some]
    constructor
    · rintro ⟨hpos, -, hpid⟩
      cases hheld : heldPid log t with
      | none =>
          rw [h.pid t, hheld, Option.getD_none, pidNone] at hpid
          omega
      | some q =>
          rw [h.pid t, hheld, Option.getD_some] at hpid
          rw [hpid]
    · intro hheld
      obtain ⟨n, rfl⟩ := h.numbered.held_eq hheld
      have hpid : (s.task t).pid = pidAt t n := by
        rw [h.pid t, hheld]
        rfl
      exact ⟨(pidAt_range t n).1, by simp, hpid⟩
  free_ok t hheld := by
    obtain ⟨s', hs, _⟩ := h.free hheld
    simp [hs]
  not_reused newest u p between t oldest hlog hheld := by
    obtain ⟨post, pre, rfl, hcount⟩ := held_eq_some hheld
    have hnumbered := hlog ▸ h.numbered
    have hsplit : between ++ .free t :: (post ++ .alloc t p :: pre) =
        (between ++ .free t :: post) ++ .alloc t p :: pre := by simp
    rw [hsplit] at hnumbered
    obtain ⟨rfl, hreuse⟩ := hnumbered.reuse
    have hpost : post.countP (TableEvent.allocatesOther u p) ≤ allocCount u post := by
      apply List.countP_mono_left
      intro e _ he
      cases e with
      | alloc v q => exact decide_eq_true (of_decide_eq_true he).1
      | _ => cases he
    have hfree : TableEvent.allocatesOther u p (.free u) = false := rfl
    rw [List.countP_append, List.countP_cons_of_neg (by simp [hfree])] at hreuse
    exact ⟨rfl, by omega⟩

/-- The task table is right after any history of allocations and frees. -/
theorem taskTable_ok {x : Scheduler × List TableEvent} (hx : tableMachine.Reachable x) :
    TaskTableOk x.1 x.2 := by
  have hinv : TableInv x.1 x.2 := by
    apply hx.invariant
    · rintro ⟨s, log⟩ ⟨htable, hlog⟩
      obtain rfl : log = [] := hlog
      exact .init htable
    · rintro ⟨s, log⟩ e ⟨s', log'⟩ h _ ⟨hs, hlog⟩
      obtain rfl : log' = e :: log := hlog
      exact h.step hs
  exact hinv.ok

/-- The first slot, handed out and given back. -/
theorem taskTable_ok_freed :
    ∃ s s', taskTableAlloc schedulerInit = some (s, 0) ∧ taskTableFree s 0 = some s' ∧
      TaskTableOk s' [.free 0, .alloc 0 0] := by
  have hrun : ((taskTableAlloc schedulerInit).bind fun r =>
      (taskTableFree r.1 0).map fun _ => (r.2, (r.1.task 0).pid)) = some (0, 0) := by
    decide
  obtain ⟨⟨s, t⟩, hs, hrest⟩ := Option.bind_eq_some_iff.mp hrun
  obtain ⟨s', hs', hres⟩ := Option.map_eq_some_iff.mp hrest
  obtain ⟨rfl, hpid⟩ := Prod.mk.inj hres
  have hinit : tableMachine.Reachable (schedulerInit, []) := .init ⟨rfl, rfl⟩
  have halloc : tableMachine.Reachable (s, [.alloc 0 0]) :=
    hinit.step (e := .alloc 0 0) trivial ⟨⟨hs, hpid⟩, rfl⟩
  have hfreed : tableMachine.Reachable (s', [.free 0, .alloc 0 0]) :=
    halloc.step (e := .free 0) trivial ⟨⟨nofun, hs'⟩, rfl⟩
  exact ⟨s, s', hs, hs', taskTable_ok hfreed⟩

end Punix
