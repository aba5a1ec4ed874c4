import Punix.Kernel.PassedStrings
import Punix.Kernel.Frames

/-!
The break of every task stays between the end of its image and the limit of its
heap. The end of the image is not kept by the kernel: it is recorded beside the
state. The break is moved by starting a program, which puts the arguments and
the environment on the heap, by `sched_fork`, which copies it, and by `mm_brk`.
Neither of the first looks at the limit, and `mm_brk` has no lower bound.
-/

namespace Punix

open Lib

inductive ExecEvent where
  /-- `sched_init` starts the swapper. -/
  | boot (m : Mem) (argv envp : BitVec 32)
  | kernelExec (filename : List UInt8) (ttyId : Int) (m : Mem) (argv envp : BitVec 32)
  | execve (m : Mem) (pathname : List UInt8) (argv envp : BitVec 32)
  | brk (addr : BitVec 32)
  /-- Everything else that the scheduler does. -/
  | sched (e : SchedEvent)

/-- The program is started by `task_kernel_exec`, not with a heap out of nowhere. -/
def SchedEvent.startsProgram : SchedEvent → Bool
  | .kernelExec .. => true
  | _ => false

def ExecEvent.Step (k : Kernel) (e : ExecEvent) (k' : Kernel) : Prop :=
  match e with
  | .boot m argv envp => ∃ k₁ t, execTask k (cstr "/sbin/swapper") 0 m argv envp = some (k₁, some t) ∧
      k' = { k₁ with sched := { k₁.sched with swapper := some t } }
  | .kernelExec filename ttyId m argv envp => ∃ k₁ task,
      execTask k filename ttyId m argv envp = some (k₁, task) ∧
      match task with
      | none => k' = k₁
      | some t => ∃ sched, schedEnqueue t k₁.sched = some sched ∧ k' = { k₁ with sched }
  | .execve m pathname argv envp => (∃ t, k.AtUser t) ∧
      ∃ m' r, schedExecve k m pathname argv envp = some (k', m', r)
  | .brk addr => (∃ t, k.AtUser t) ∧ ∃ r, mmBrk k addr = (k', r)
  | .sched e => e.startsProgram = false ∧ e.Step k k'

/-- The aligned end of the image that each slot has been loaded with. -/
abbrev ImageEnds := Slot → Option (BitVec 32)

/-- `task_kernel_exec` has started a program. -/
def recordExec (k : Kernel) (filename : List UInt8) (ttyId : Int) (m : Mem) (argv envp : BitVec 32)
    (ends : ImageEnds) : ImageEnds :=
  match kernelLoad k.embeddedBins filename m argv envp, execTask k filename ttyId m argv envp with
  | some (some loaded), some (_, some t) => Function.update ends t (some loaded.programEnd)
  | _, _ => ends

/-- The ends after the step. -/
def ExecEvent.recordEnd (k : Kernel) (ends : ImageEnds) : ExecEvent → ImageEnds
  | .boot m argv envp => recordExec k (cstr "/sbin/swapper") 0 m argv envp ends
  | .kernelExec filename ttyId m argv envp => recordExec k filename ttyId m argv envp ends
  | .execve m pathname _ _ =>
      match k.sched.current, (findImage k.embeddedBins pathname).map (elfLoad · m) with
      | some t, some (_, some info) => Function.update ends t (some info.programEnd)
      | _, _ => ends
  | .sched .fork =>
      match k.sched.current, k.nextSlot with
      | some p, some t => Function.update ends t (ends p)
      | _, _ => ends
  | .brk _ | .sched _ => ends

/-- The kernel from its first state on, in which there are no tasks. -/
def breakMachine : Machine (Kernel × ImageEnds) ExecEvent where
  init s := (∃ bins, s.1 = kernelInit bins) ∧ s.2 = fun _ => none
  step s e s' := e.Step s.1 s'.1 ∧ s'.2 = e.recordEnd s.1 s.2

/-- The break is between the end of the image and the limit, `PROCESS_HEAP_SIZE` above it. -/
structure Task.BreakOk (task : Task) (e : BitVec 32) : Prop where
  low : e ≤ task.brk
  high : task.brk ≤ task.brkLimit
  limit : task.brkLimit.toNat = e.toNat + processHeapSize

/-- Every allocated task has been loaded, and its break is in its window. -/
def BreaksOk (s : Kernel × ImageEnds) : Prop :=
  ∀ t, (s.1.sched.task t).pid ≠ pidNone → ∃ e, s.2 t = some e ∧ (s.1.sched.task t).BreakOk e

/-- The arguments and the environment of a program that the kernel starts fit on its heap. -/
def StartFits (bins : List EmbeddedBin) (filename : List UInt8) (m : Mem) (argv envp : BitVec 32) :
    Prop :=
  ∀ load ∈ (findImage bins filename).map (elfLoad · m), ∀ info ∈ load.2,
    info.programEnd ≤ heapLimit info.programEnd → VectorsFit load.1 info.programEnd argv envp

/-- The strings of a new program fit on its heap, the heap of a program that replaces
another one lies in the address space, and a break that is not refused is not below
the image. -/
def ExecEvent.InWindow (s : Kernel × ImageEnds) : ExecEvent → Prop
  | .boot m argv envp => StartFits s.1.embeddedBins (cstr "/sbin/swapper") m argv envp
  | .kernelExec filename _ m argv envp => StartFits s.1.embeddedBins filename m argv envp
  | .execve m pathname argv envp =>
      ∀ load ∈ (findImage s.1.embeddedBins pathname).map (elfLoad · m), ∀ info ∈ load.2,
        info.programEnd ≤ heapLimit info.programEnd ∧ VectorsFit load.1 info.programEnd argv envp
  | .brk addr => ∀ t ∈ s.1.sched.current, addr ≤ (s.1.sched.task t).brkLimit →
      (s.2 t).all fun e => e ≤ addr
  | .sched _ => True

instance (bins : List EmbeddedBin) (filename : List UInt8) (m : Mem) (argv envp : BitVec 32) :
    Decidable (StartFits bins filename m argv envp) :=
  inferInstanceAs (Decidable (∀ load ∈ (findImage bins filename).map (elfLoad · m),
    ∀ info ∈ load.2, info.programEnd ≤ heapLimit info.programEnd →
      VectorsFit load.1 info.programEnd argv envp))

instance ExecEvent.decidableInWindow (s : Kernel × ImageEnds) : ∀ e, Decidable (InWindow s e)
  | .boot m argv envp =>
      inferInstanceAs (Decidable (StartFits s.1.embeddedBins (cstr "/sbin/swapper") m argv envp))
  | .kernelExec filename _ m argv envp =>
      inferInstanceAs (Decidable (StartFits s.1.embeddedBins filename m argv envp))
  | .execve m pathname argv envp => inferInstanceAs (Decidable
      (∀ load ∈ (findImage s.1.embeddedBins pathname).map (elfLoad · m), ∀ info ∈ load.2,
        info.programEnd ≤ heapLimit info.programEnd ∧ VectorsFit load.1 info.programEnd argv envp))
  | .brk addr => inferInstanceAs (Decidable
      (∀ t ∈ s.1.sched.current, addr ≤ (s.1.sched.task t).brkLimit →
        (s.2 t).all fun e => e ≤ addr))
  | .sched _ => inferInstanceAs (Decidable True)

/-- A task keeps its break, and its pid unless it is freed. -/
def Task.KeepsBreak (task task' : Task) : Prop :=
  task'.brk = task.brk ∧ task'.brkLimit = task.brkLimit ∧
    (task'.pid ≠ pidNone → task'.pid = task.pid)

theorem frame_keepsBreak : Task.Frame Task.KeepsBreak where
  refl _ := ⟨rfl, rfl, fun _ => rfl⟩
  trans h h' := by
    obtain ⟨hbrk, hlimit, hpid⟩ := h
    obtain ⟨hbrk', hlimit', hpid'⟩ := h'
    refine ⟨hbrk'.trans hbrk, hlimit'.trans hlimit, fun hne => ?_⟩
    have heq := hpid' hne
    exact heq.trans (hpid (heq ▸ hne))
  next _ _ := ⟨rfl, rfl, fun _ => rfl⟩
  children _ _ := ⟨rfl, rfl, fun _ => rfl⟩
  nextSibling _ _ := ⟨rfl, rfl, fun _ => rfl⟩
  ctxt _ _ := ⟨rfl, rfl, fun _ => rfl⟩
  pending _ _ := ⟨rfl, rfl, fun _ => rfl⟩
  state _ _ _ := ⟨rfl, rfl, fun _ => rfl⟩
  free _ := ⟨rfl, rfl, fun hne => absurd rfl hne⟩

theorem keepsBreak_zombie (k : Kernel) (t : Slot) (status : BitVec 32) (c : Slot) :
    (k.sched.task c).KeepsBreak ((k.zombie t status).sched.task c) := by
  unfold Kernel.zombie Kernel.modifyTask
  rw [Scheduler.task_modifyTask]
  split
  · next heq => exact heq ▸ ⟨rfl, rfl, fun _ => rfl⟩
  · exact ⟨rfl, rfl, fun _ => rfl⟩

theorem Task.BreakOk.of_keeps {task task' : Task} {e : BitVec 32} (h : task.BreakOk e)
    (hkeep : task.KeepsBreak task') : task'.BreakOk e := by
  obtain ⟨hbrk, hlimit, _⟩ := hkeep
  exact ⟨hbrk ▸ h.low, hbrk ▸ hlimit ▸ h.high, hlimit ▸ h.limit⟩

/-- The slots that have been loaded have their breaks in their windows, and no other
slot has a pid or can get the processor. -/
structure BreakInv (s : Kernel × ImageEnds) : Prop where
  window : ∀ t e, s.2 t = some e → (s.1.sched.task t).BreakOk e
  loaded : ∀ t, (s.1.sched.task t).pid ≠ pidNone → (s.2 t).isSome
  points : s.1.Points fun t => (s.2 t).isSome

theorem BreakInv.breaksOk {s : Kernel × ImageEnds} (h : BreakInv s) : BreaksOk s := by
  intro t ht
  obtain ⟨e, he⟩ := Option.isSome_iff_exists.mp (h.loaded t ht)
  exact ⟨e, he, h.window t e he⟩

section Step

variable {k k' : Kernel} {ends : ImageEnds} {t : Slot} {e : BitVec 32}

theorem BreakInv.of_keeps (h : BreakInv (k, ends))
    (htask : ∀ c, (k.sched.task c).KeepsBreak (k'.sched.task c))
    (hp : k'.Points fun t => (ends t).isSome) : BreakInv (k', ends) where
  window c e he := (h.window c e he).of_keeps (htask c)
  loaded c hc := h.loaded c ((htask c).2.2 hc ▸ hc)
  points := hp

theorem isSome_update (ends : ImageEnds) (t : Slot) (e : BitVec 32) {c : Slot}
    (h : (ends c).isSome) : ((Function.update ends t (some e)) c).isSome := by
  rcases eq_or_ne c t with rfl | hne
  · simp
  · rwa [Function.update_of_ne hne]

theorem Kernel.Points.mono {L L' : Slot → Prop} (h : k.Points L) (hL : ∀ t, L t → L' t) :
    k.Points L' :=
  ⟨⟨fun t ht => hL t (h.sched.current t ht), fun t ht => hL t (h.sched.swapper t ht),
    fun t ht => hL t (h.sched.first t ht), fun t ht => hL t (h.sched.last t ht),
    fun t u hu => hL u (h.sched.next t u hu)⟩, fun e t ht => hL t (h.sleeper e t ht)⟩

/-- A slot is loaded anew, with its break in its window. -/
theorem BreakInv.load (h : BreakInv (k, ends))
    (hnew : (k'.sched.task t).BreakOk e)
    (hold : ∀ c, c ≠ t → (k.sched.task c).KeepsBreak (k'.sched.task c))
    (hp : k'.Points fun c => (Function.update ends t (some e) c).isSome) :
    BreakInv (k', Function.update ends t (some e)) where
  window c e' he := by
    change Function.update ends t (some e) c = some e' at he
    rcases eq_or_ne c t with rfl | hne
    · rw [Function.update_self] at he
      exact Option.some.inj he ▸ hnew
    · rw [Function.update_of_ne hne] at he
      exact (h.window c e' he).of_keeps (hold c hne)
  loaded c hc := by
    rcases eq_or_ne c t with rfl | hne
    · simp
    · exact isSome_update ends t e (h.loaded c ((hold c hne).2.2 hc ▸ hc))
  points := hp

theorem Task.breakOk {task : Task} {n : Nat} (hroom : e ≤ heapLimit e)
    (hused : n ≤ processHeapSize) (hbrk : task.brk = e + BitVec.ofNat 32 n)
    (hlimit : task.brkLimit = heapLimit e) : task.BreakOk e := by
  have hsize : processHeapSize = 524288 := by decide
  have he := e.isLt
  rw [BitVec.le_def, heapLimit, BitVec.toNat_add, BitVec.toNat_ofNat] at hroom
  refine ⟨?_, ?_, ?_⟩
  · rw [BitVec.le_def, hbrk, BitVec.toNat_add, BitVec.toNat_ofNat]
    omega
  · rw [BitVec.le_def, hbrk, hlimit, heapLimit, BitVec.toNat_add, BitVec.toNat_add,
      BitVec.toNat_ofNat, BitVec.toNat_ofNat]
    omega
  · rw [hlimit, heapLimit, BitVec.toNat_add, BitVec.toNat_ofNat]
    omega

theorem initHeap_programEnd {info : ElfInfo} {m : Mem} {argv envp : BitVec 32} {loaded : Loaded}
    (h : initHeap info m argv envp = some loaded) : loaded.programEnd = info.programEnd := by
  obtain ⟨args, _, h⟩ := Option.bind_eq_some_iff.mp h
  obtain ⟨env, _, h⟩ := Option.bind_eq_some_iff.mp h
  exact Option.some.inj h ▸ rfl

/-- A program that the kernel has loaded has room for its heap, and its vectors fit there. -/
theorem StartFits.loaded {bins : List EmbeddedBin} {filename : List UInt8} {m : Mem}
    {argv envp : BitVec 32} {loaded : Loaded} (h : StartFits bins filename m argv envp)
    (hload : kernelLoad bins filename m argv envp = some (some loaded)) :
    loaded.programEnd ≤ heapLimit loaded.programEnd ∧ loaded.used ≤ processHeapSize := by
  unfold kernelLoad at hload
  split at hload
  · next m₁ info himage =>
      split at hload
      · cases hload
      · next hroom =>
          obtain ⟨loaded', hinit, heq⟩ := Option.map_eq_some_iff.mp hload
          obtain rfl := Option.some.inj heq
          obtain ⟨image, _, hinfo⟩ := Option.map_eq_some_iff.mp himage
          have hcurbrk := (elfLoad_offsets (congrArg Prod.snd hinfo)).2
          have hfits : VectorsFit m₁ info.programEnd argv envp :=
            h (m₁, some info) (himage ▸ rfl) info rfl (BitVec.not_lt.mp hroom)
          rw [initHeap_programEnd hinit]
          exact ⟨BitVec.not_lt.mp hroom, hfits.used_le hcurbrk hinit⟩
  · cases hload

theorem recordExec_none {filename : List UInt8} {ttyId : Int} {m : Mem} {argv envp : BitVec 32}
    (h : execTask k filename ttyId m argv envp = some (k', none)) :
    recordExec k filename ttyId m argv envp ends = ends := by
  unfold recordExec
  rw [h]
  split <;> simp_all

/-- `task_kernel_exec`. -/
theorem BreakInv.execTask {filename : List UInt8} {ttyId : Int} {m : Mem} {argv envp : BitVec 32}
    {r : Option Slot} (h : BreakInv (k, ends))
    (hfits : StartFits k.embeddedBins filename m argv envp)
    (hk : Punix.execTask k filename ttyId m argv envp = some (k', r)) :
    BreakInv (k', recordExec k filename ttyId m argv envp ends) ∧
      ∀ t, r = some t → (recordExec k filename ttyId m argv envp ends t).isSome := by
  have hR := frame_keepsBreak
  obtain ⟨load, hload, hexec⟩ := Option.bind_eq_some_iff.mp hk
  obtain ⟨hp, hcase⟩ := KernelKeeps.taskKernelExec hR h.points hexec
  rcases hcase with ⟨rfl, rfl⟩ | ⟨rfl, t, _, ⟨task, hpooled, hnew⟩, hold⟩ |
    ⟨t, brk, brkLimit, rfl, hheap, _, ⟨task, hqueued, hnew⟩, hold⟩
  · rw [recordExec_none hk]
    exact ⟨h, nofun⟩
  · rw [recordExec_none hk]
    obtain ⟨hpid, _, hbrk, hlimit⟩ := hpooled
    refine ⟨⟨fun c e he => ?_, fun c hc => ?_, hp⟩, nofun⟩
    · rcases eq_or_ne c t with rfl | hne
      · obtain ⟨low, high, limit⟩ := h.window c e he
        obtain ⟨hbrk', hlimit', _⟩ := hnew
        rw [hbrk] at hbrk'
        rw [hlimit] at hlimit'
        exact ⟨hbrk' ▸ low, hbrk' ▸ hlimit' ▸ high, hlimit' ▸ limit⟩
      · exact (h.window c e he).of_keeps (hold c hne)
    · rcases eq_or_ne c t with rfl | hne
      · exact absurd ((hnew.2.2 hc).trans hpid) hc
      · exact h.loaded c ((hold c hne).2.2 hc ▸ hc)
  · obtain ⟨loaded, rfl, heap⟩ := Option.map_eq_some_iff.mp hheap
    obtain ⟨rfl, rfl⟩ := Prod.mk.inj heap
    have hrecord : recordExec k filename ttyId m argv envp ends =
        Function.update ends t (some loaded.programEnd) := by
      simp only [recordExec, hload, hk]
    obtain ⟨_, hbrk, hlimit⟩ := hqueued
    obtain ⟨hroom, hused⟩ := hfits.loaded hload
    have hwindow : (k'.sched.task t).BreakOk loaded.programEnd :=
      (Task.breakOk hroom hused hbrk hlimit).of_keeps hnew
    rw [hrecord]
    refine ⟨h.load hwindow hold (hp.mono fun c hc => isSome_update ends t _ hc), fun u hu => ?_⟩
    obtain rfl := Option.some.inj hu
    simp

/-- `sched_fork`. -/
theorem BreakInv.fork {r : Int} (h : BreakInv (k, ends)) (hk : schedFork k = some (k', r)) :
    BreakInv (k', ExecEvent.recordEnd k ends (.sched .fork)) := by
  have hR := frame_keepsBreak
  rcases hcur : k.sched.current with _ | p
  · rcases KernelKeeps.schedFork hR k.points_true (fun _ _ => trivial) hk with
      ⟨rfl, _⟩ | ⟨_, p, _, hp, _⟩
    · rw [ExecEvent.recordEnd, hcur]
      exact h
    · cases hcur.symm.trans hp
  rcases hslot : k.nextSlot with _ | t
  · rcases KernelKeeps.schedFork hR k.points_true (fun _ _ => trivial) hk with
      ⟨rfl, _⟩ | ⟨_, _, t, _, hnew⟩
    · rw [ExecEvent.recordEnd, hcur, hslot]
      exact h
    · cases hslot.symm.trans hnew.slot
  -- the child has the end of its parent, which has been loaded because it runs
  obtain ⟨e, he⟩ := Option.isSome_iff_exists.mp (h.points.sched.current p hcur)
  have hrecord : ExecEvent.recordEnd k ends (.sched .fork) = Function.update ends t (some e) := by
    simp only [ExecEvent.recordEnd, hcur, hslot]
    exact congrArg _ he
  have hp := h.points.mono fun c hc => isSome_update ends t e hc
  have hnext : ∀ u, k.nextSlot = some u → (Function.update ends t (some e) u).isSome := by
    intro u hu
    obtain rfl := Option.some.inj (hslot.symm.trans hu)
    simp
  rcases KernelKeeps.schedFork hR hp hnext hk with
    ⟨_, hnone | hnone⟩ | ⟨hp', p', t', hp, hslot', ⟨task, ⟨old, rfl⟩, hnew⟩, hold⟩
  · cases hcur.symm.trans hnone
  · cases hslot.symm.trans hnone
  · obtain rfl := Option.some.inj (hcur.symm.trans hp)
    obtain rfl := Option.some.inj (hslot.symm.trans hslot')
    rw [hrecord]
    obtain ⟨low, high, limit⟩ := h.window p e he
    have hchild : (forkTask p (k.sched.task p) old).BreakOk e := ⟨low, high, limit⟩
    exact h.load (hchild.of_keeps hnew) hold hp'

theorem recordEnd_sched {e : SchedEvent} (he : e ≠ .fork) :
    ExecEvent.recordEnd k ends (.sched e) = ends := by
  cases e with
  | fork => exact absurd rfl he
  | kernelExec | schedule | exit | kill | ttyRead | waitpid | resume | wakeup | ttyInput
  | outside => rfl

/-- A step of the scheduler that starts no program. -/
theorem BreakInv.sched {e : SchedEvent} (h : BreakInv (k, ends)) (he : e.startsProgram = false)
    (hs : e.Step k k') : BreakInv (k', ExecEvent.recordEnd k ends (.sched e)) := by
  have hR := frame_keepsBreak
  rcases eq_or_ne e .fork with rfl | hfork
  · obtain ⟨_, r, hk⟩ := hs
    exact h.fork hk
  rw [recordEnd_sched hfork]
  rcases stepKind hR h.points h.loaded hs with hk | hk | ⟨hcode, hkeep⟩ | ⟨hcode, hkeep⟩
  · cases he
  · exact absurd rfl hfork
  · refine h.of_keeps (fun c => ?_) hkeep.points
    exact hR.trans (keepsBreak_zombie k _ _ c) (hkeep.task c)
  · exact h.of_keeps hkeep.task hkeep.points

/-- The exit that a failed `sched_execve` comes to. -/
theorem BreakInv.exit {status : BitVec 32} (h : BreakInv (k, ends))
    (hk : schedExit k status = some k') : BreakInv (k', ends) := by
  obtain ⟨t, _, hkeep⟩ := KernelKeeps.schedExit frame_keepsBreak h.points hk
  refine h.of_keeps (fun c => ?_) hkeep.points
  exact frame_keepsBreak.trans (keepsBreak_zombie k t status c) (hkeep.task c)

/-- The current task is written, but for its pid and its links. -/
theorem Kernel.Points.modifyTask {L : Slot → Prop} (h : k.Points L) (t : Slot) {f : Task → Task}
    (hnext : (f (k.sched.task t)).next = (k.sched.task t).next) : (k.modifyTask t f).Points L :=
  ⟨h.sched.modifyTask t fun u hu => h.sched.next t u (hnext ▸ hu), h.sleeper⟩

theorem BreakInv.keep (h : BreakInv (k, ends)) (t : Slot) {f : Task → Task}
    (hf : (k.sched.task t).KeepsBreak (f (k.sched.task t)))
    (hnext : (f (k.sched.task t)).next = (k.sched.task t).next) :
    BreakInv (k.modifyTask t f, ends) :=
  h.of_keeps (Keeps.modifyTask frame_keepsBreak h.points.sched t hf hnext).task
    (h.points.modifyTask t hnext)

/-- A task gets a new break, in the window of the image that it has then. -/
theorem BreakInv.modifyTask (h : BreakInv (k, ends)) (t : Slot) {f : Task → Task}
    (hf : (f (k.sched.task t)).BreakOk e)
    (hnext : (f (k.sched.task t)).next = (k.sched.task t).next) :
    BreakInv (k.modifyTask t f, Function.update ends t (some e)) := by
  apply h.load
  · unfold Kernel.modifyTask
    rwa [Scheduler.task_modifyTask_self]
  · intro c hc
    unfold Kernel.modifyTask
    rw [Scheduler.task_modifyTask_of_ne _ _ _ _ hc]
    exact frame_keepsBreak.refl _
  · exact (h.points.modifyTask t hnext).mono fun c hc => isSome_update ends t e hc

/-- `sched_execve`. -/
theorem BreakInv.execve {m m' : Mem} {pathname : List UInt8} {argv envp : BitVec 32} {r : ExecResult}
    (h : BreakInv (k, ends)) (hwin : ExecEvent.InWindow (k, ends) (.execve m pathname argv envp))
    (hk : schedExecve k m pathname argv envp = some (k', m', r)) :
    BreakInv (k', ExecEvent.recordEnd k ends (.execve m pathname argv envp)) := by
  unfold schedExecve at hk
  split at hk
  · next hcur =>
      obtain ⟨rfl, _⟩ := Prod.mk.inj (Option.some.inj hk)
      rw [ExecEvent.recordEnd, hcur]
      exact h
  next t hcur =>
  split at hk
  · next himage =>
      obtain ⟨rfl, _⟩ := Prod.mk.inj (Option.some.inj hk)
      rw [ExecEvent.recordEnd, hcur, himage]
      exact h
  next image himage =>
  dsimp only at hk
  have hname := h.keep t (f := fun task =>
    { task with name := CharArray.ofBytes maxFilenameLen pathname }) ⟨rfl, rfl, fun _ => rfl⟩ rfl
  split at hk
  · next m₁ hload =>
      have hrecord : ExecEvent.recordEnd k ends (.execve m pathname argv envp) = ends := by
        simp [ExecEvent.recordEnd, hcur, himage, hload]
      obtain ⟨k₁, hexit, heq⟩ := Option.map_eq_some_iff.mp hk
      obtain ⟨rfl, _⟩ := Prod.mk.inj heq
      exact hrecord.symm ▸ hname.exit hexit
  · next m₁ info hload =>
      obtain ⟨hroom, hfits⟩ := hwin (m₁, some info) (by simp [himage, hload]) info rfl
      have hrecord : ExecEvent.recordEnd k ends (.execve m pathname argv envp) =
          Function.update ends t (some info.programEnd) := by
        simp [ExecEvent.recordEnd, hcur, himage, hload]
      rw [if_neg (BitVec.not_lt.mpr hroom)] at hk
      obtain ⟨loaded, hinit, hk⟩ := Option.bind_eq_some_iff.mp hk
      obtain ⟨rfl, _⟩ := Prod.mk.inj (Option.some.inj hk)
      have hused := hfits.used_le (elfLoad_offsets (congrArg Prod.snd hload)).2 hinit
      have hreset := hname.modifyTask t (f := fun task => { task with
          brk := info.programEnd, brkLimit := heapLimit info.programEnd })
        (Task.breakOk (n := 0) hroom (Nat.zero_le _) (by simp) rfl) rfl
      have hlast := hreset.modifyTask t (f := fun task => { task with
          brk := loaded.brk, pending := 0 }) (e := info.programEnd) ?_ rfl
      · rw [hrecord]
        rwa [Function.update_idem] at hlast
      · refine Task.breakOk hroom hused ?_ ?_
        · rw [Loaded.brk, initHeap_programEnd hinit]
        · simp [Kernel.modifyTask]

/-- `mm_brk`. -/
theorem BreakInv.brk {addr : BitVec 32} {r : Int} (h : BreakInv (k, ends))
    (hwin : ExecEvent.InWindow (k, ends) (.brk addr)) (hk : mmBrk k addr = (k', r)) :
    BreakInv (k', ends) := by
  unfold mmBrk at hk
  split at hk
  · exact (Prod.mk.inj hk).1 ▸ h
  next t hcur =>
  split at hk
  · exact (Prod.mk.inj hk).1 ▸ h
  · next hle =>
      obtain ⟨rfl, _⟩ := Prod.mk.inj hk
      obtain ⟨e, he⟩ := Option.isSome_iff_exists.mp (h.points.sched.current t hcur)
      obtain ⟨_, _, limit⟩ := h.window t e he
      change ends t = some e at he
      have hall : (ends t).all fun e => e ≤ addr := hwin t hcur (BitVec.not_lt.mp hle)
      rw [he] at hall
      have hlow : e ≤ addr := of_decide_eq_true hall
      have hsame : Function.update ends t (some e) = ends := by
        rw [← he]
        exact Function.update_eq_self t ends
      rw [← hsame]
      exact h.modifyTask t (f := fun task => { task with brk := addr })
        ⟨hlow, BitVec.not_lt.mp hle, limit⟩ rfl

end Step

theorem BreakInv.step {s s' : Kernel × ImageEnds} {e : ExecEvent} (h : BreakInv s)
    (hwin : e.InWindow s) (hs : breakMachine.step s e s') : BreakInv s' := by
  obtain ⟨k, ends⟩ := s
  obtain ⟨k', ends'⟩ := s'
  obtain ⟨hs, hends⟩ := hs
  dsimp only at hends
  subst hends
  cases e with
  | boot m argv envp =>
      obtain ⟨k₁, t, hk, rfl⟩ := hs
      obtain ⟨hinv, ht⟩ := h.execTask hwin hk
      have hp := hinv.points
      exact ⟨hinv.window, hinv.loaded, ⟨hp.sched.current, fun u hu => Option.some.inj hu ▸ ht t rfl,
        hp.sched.first, hp.sched.last, hp.sched.next⟩, hp.sleeper⟩
  | kernelExec filename ttyId m argv envp =>
      obtain ⟨k₁, task, hk, hs⟩ := hs
      obtain ⟨hinv, ht⟩ := h.execTask hwin hk
      cases task with
      | none =>
          obtain rfl : k' = k₁ := hs
          exact hinv
      | some t =>
          obtain ⟨sched, hpush, rfl⟩ := hs
          have hkeep := Keeps.runQueuePush frame_keepsBreak hinv.points.sched (ht t rfl) hpush
          exact hinv.of_keeps hkeep.task ⟨hkeep.points, hinv.points.sleeper⟩
  | execve m pathname argv envp =>
      obtain ⟨_, m', r, hk⟩ := hs
      exact h.execve hwin hk
  | brk addr =>
      obtain ⟨_, r, hk⟩ := hs
      exact h.brk hwin hk
  | sched e => exact h.sched hs.1 hs.2

/-- The break of every allocated task is in its window. -/
theorem breaksOk_of_inWindow {s : Kernel × ImageEnds}
    (h : breakMachine.Reaches (fun s e => e.InWindow s) s) : BreaksOk s := by
  have hinv : BreakInv s := by
    apply h.invariant
    · rintro ⟨k, ends⟩ ⟨⟨bins, hk⟩, hends⟩
      obtain rfl : k = kernelInit bins := hk
      obtain rfl : ends = fun _ => none := hends
      refine ⟨nofun, fun t ht => absurd rfl ht, ⟨nofun, nofun, nofun, nofun, nofun⟩, nofun⟩
    · exact fun s e s' hs he hstep => hs.step he hstep
  exact hinv.breaksOk

/-- The step as a function. -/
def ExecEvent.exec (k : Kernel) : ExecEvent → Option Kernel
  | .boot m argv envp => do
      let (k, task) ← execTask k (cstr "/sbin/swapper") 0 m argv envp
      let t ← task
      some { k with sched := { k.sched with swapper := some t } }
  | .kernelExec filename ttyId m argv envp => do
      match ← execTask k filename ttyId m argv envp with
      | (k, none) => some k
      | (k, some t) => (schedEnqueue t k.sched).map fun sched => { k with sched }
  | .execve m pathname argv envp =>
      SchedEvent.byUser k fun _ => (schedExecve k m pathname argv envp).map Prod.fst
  | .brk addr => SchedEvent.byUser k fun _ => some (mmBrk k addr).1
  | .sched e => if e.startsProgram then none else e.exec k

theorem ExecEvent.step_of_exec {k k' : Kernel} {e : ExecEvent} (h : e.exec k = some k') :
    e.Step k k' := by
  cases e with
  | boot m argv envp =>
      obtain ⟨⟨k₁, task⟩, hexec, h⟩ := Option.bind_eq_some_iff.mp h
      obtain ⟨t, rfl, h⟩ := Option.bind_eq_some_iff.mp h
      exact ⟨k₁, t, hexec, (Option.some.inj h).symm⟩
  | kernelExec filename ttyId m argv envp =>
      obtain ⟨⟨k₁, task⟩, hexec, h⟩ := Option.bind_eq_some_iff.mp h
      refine ⟨k₁, task, hexec, ?_⟩
      cases task with
      | none => exact (Option.some.inj h).symm
      | some t =>
          obtain ⟨sched, hpush, rfl⟩ := Option.map_eq_some_iff.mp h
          exact ⟨sched, hpush, rfl⟩
  | execve m pathname argv envp =>
      obtain ⟨t, ht, h⟩ := SchedEvent.byUser_eq_some h
      obtain ⟨⟨k₁, m', r⟩, hexec, rfl⟩ := Option.map_eq_some_iff.mp h
      exact ⟨⟨t, ht⟩, m', r, hexec⟩
  | brk addr =>
      obtain ⟨t, ht, h⟩ := SchedEvent.byUser_eq_some h
      exact ⟨⟨t, ht⟩, (mmBrk k addr).2, Prod.ext (Option.some.inj h) rfl⟩
  | sched e =>
      rw [ExecEvent.exec] at h
      split at h
      · cases h
      · next he => exact ⟨Bool.eq_false_iff.mpr he, SchedEvent.step_of_exec h⟩

/-- A program of one segment, 16 bytes of zeros at 0x400000. -/
def zerosElf : List UInt8 :=
  [0x7F, 69, 76, 70] ++ List.replicate 12 0 ++ [2, 0, 3, 0, 1, 0, 0, 0] ++ [0, 0, 0x40, 0] ++
    [52, 0, 0, 0] ++ List.replicate 8 0 ++ [52, 0, 32, 0, 1, 0] ++ List.replicate 6 0 ++
    [1, 0, 0, 0] ++ [84, 0, 0, 0] ++ [0, 0, 0x40, 0] ++ [0, 0, 0x40, 0] ++ [0, 0, 0, 0] ++
    [16, 0, 0, 0] ++ [7, 0, 0, 0] ++ [0, 16, 0, 0]

def zerosBins : List EmbeddedBin :=
  [{ name := cstr "/sbin/swapper", image := zerosElf }, { name := cstr "/bin/sh", image := zerosElf }]

/-- The state after `es`, with the ends of the images. -/
def afterExec (guard : Kernel × ImageEnds → ExecEvent → Prop) [∀ s e, Decidable (guard s e)]
    (es : List ExecEvent) : Option (Kernel × ImageEnds) :=
  Machine.execAll (fun s e => (e.exec s.1).map (·, e.recordEnd s.1 s.2)) guard es
    (kernelInit zerosBins, fun _ => none)

theorem reaches_afterExec {guard : Kernel × ImageEnds → ExecEvent → Prop}
    [∀ s e, Decidable (guard s e)] {es : List ExecEvent} {s : Kernel × ImageEnds}
    (h : afterExec guard es = some s) : breakMachine.Reaches guard s := by
  have hstart : breakMachine.Reaches guard (kernelInit zerosBins, fun _ => none) :=
    .init ⟨⟨zerosBins, rfl⟩, rfl⟩
  refine Machine.Reaches.execAll ?_ hstart h
  intro s e s' hs
  obtain ⟨k', hk', rfl⟩ := Option.map_eq_some_iff.mp hs
  exact ⟨ExecEvent.step_of_exec hk', rfl⟩

/-- The swapper and a shell are started, the shell has the processor, and it sets its
break. No argument is passed. -/
def shellBreak (addr : BitVec 32) : List ExecEvent :=
  [.boot (fun _ => 0) 0 0, .kernelExec (cstr "/bin/sh") 0 (fun _ => 0) 0 0, .sched .schedule,
    .brk addr]

/-- The shell runs. -/
theorem shell_reachable : ∃ k ends, breakMachine.Reachable (k, ends) ∧
    k.sched.current = some 1 ∧ k.embeddedBins = zerosBins := by
  obtain ⟨⟨k, ends⟩, hs, hk⟩ := (Option.any_eq_true _ _).mp
    (show (afterExec (fun _ _ => True) [.boot (fun _ => 0) 0 0,
      .kernelExec (cstr "/bin/sh") 0 (fun _ => 0) 0 0, .sched .schedule]).any (fun s =>
        s.1.sched.current = some 1 ∧ s.1.embeddedBins = zerosBins) by decide +kernel)
  obtain ⟨hcur, hbins⟩ := of_decide_eq_true hk
  exact ⟨k, ends, reaches_afterExec hs, hcur, hbins⟩

/-- The shell sets its break to 16 bytes behind its image. -/
theorem breaksOk_shell :
    ∃ s, afterExec (fun s e => e.InWindow s) (shellBreak 0x400020) = some s ∧ BreaksOk s := by
  obtain ⟨s, hs⟩ := Option.isSome_iff_exists.mp
    (show (afterExec (fun s e => e.InWindow s) (shellBreak 0x400020)).isSome by decide +kernel)
  exact ⟨s, hs, breaksOk_of_inWindow (reaches_afterExec hs)⟩

/-- The shell sets its break to 0, below its image. -/
theorem break_belowImage :
    ∃ k ends, breakMachine.Reachable (k, ends) ∧ (k.sched.task 1).pid = 1 ∧
      ends 1 = some 0x400010 ∧ (k.sched.task 1).brk = 0 ∧ ¬ BreaksOk (k, ends) := by
  obtain ⟨⟨k, ends⟩, hs, hbrk⟩ := (Option.any_eq_true _ _).mp
    (show (afterExec (fun _ _ => True) (shellBreak 0)).any (fun s => (s.1.sched.task 1).pid = 1 ∧
      s.2 1 = some 0x400010 ∧ (s.1.sched.task 1).brk = 0) by decide +kernel)
  obtain ⟨hpid, hend, hzero⟩ := of_decide_eq_true hbrk
  refine ⟨k, ends, reaches_afterExec hs, hpid, hend, hzero, fun h => ?_⟩
  obtain ⟨e, he, hwindow⟩ := h 1 (by rw [hpid]; decide)
  obtain rfl := Option.some.inj (hend.symm.trans he)
  have hlow : (0x400010 : BitVec 32) ≤ (k.sched.task 1).brk := hwindow.low
  rw [hzero] at hlow
  exact absurd hlow (by decide)

end Punix
