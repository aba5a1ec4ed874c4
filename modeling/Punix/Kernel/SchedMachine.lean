import Punix.Kernel.WaitRefine

/-!
The scheduler as a transition system: a system call, an interrupt or a context
switch is one step, and a call that sleeps is left at its `sched_schedule` and
goes on when its task has the processor again. Every step that puts no task into
the run queue twice is matched by actions on the lists of `Procs`.
-/

namespace Punix

open Lib

inductive SchedEvent where
  | kernelExec (filename : List UInt8) (ttyId : Int) (load : Option (BitVec 32 × BitVec 32))
  | fork
  | schedule
  | exit (status : BitVec 32)
  | kill (pid sig : Int)
  | ttyRead (tty : TtyRef) (count : Nat)
  | waitpid (pid : Int) (status : Bool) (options : BitVec 32)
  /-- The current task goes on behind the `sched_schedule` that it slept in. -/
  | resume
  | wakeup (q : WaitQueueRef)
  /-- The keyboard interrupt. -/
  | ttyInput (tty : TtyRef) (c : UInt8)
  /-- Work on files, devices and terminals. -/
  | outside

namespace Kernel

/-- The task runs in user mode, and may make a system call. -/
structure AtUser (k : Kernel) (t : Slot) : Prop where
  current : k.sched.current = some t
  ctl : k.ctl t = .user

/-- The tasks that following `next` from `run_queue.first` visits. -/
def runQueueTasks (k : Kernel) : List Slot :=
  Chain.walk (fun t => (k.sched.task t).next) k.sched.runQueue.len k.sched.runQueue.first

/-- The tasks that `wakeup` would put into the run queue. -/
def sleepers (k : Kernel) (q : WaitQueueRef) : List Slot :=
  ((Chain.walk k.waits.next maxProcessCnt (k.waits.queues q).head).filterMap k.waits.task).filter
    fun t => (k.sched.task t).sleeping

/-- The tasks that the exit of `t` puts into the run queue. -/
def exitSleepers (k : Kernel) (t : Slot) : List Slot :=
  k.sleepers (.waitExit t) ++
    match (k.sched.task t).parent with
    | some p => if p ≠ t then k.sleepers (.waitChild p) else []
    | none => []

end Kernel

namespace SchedEvent

def Step (k : Kernel) (e : SchedEvent) (k' : Kernel) : Prop :=
  match e with
  | .kernelExec filename ttyId load => ∃ r, schedKernelExec k filename ttyId load = some (k', r)
  | .fork => (∃ t, k.AtUser t) ∧ ∃ r, schedFork k = some (k', r)
  | .schedule => (∀ t, k.sched.current = some t → k.ctl t = .user) ∧ k.schedule = some k'
  | .exit status => (∃ t, k.AtUser t) ∧ schedExit k status = some k'
  | .kill pid sig => ∃ r, schedKill k pid sig = some (k', r)
  | .ttyRead tty count => ∃ t r, k.AtUser t ∧ k.ttyRead t tty count = some (k', r)
  | .waitpid pid status options =>
      ∃ t r, k.AtUser t ∧ k.schedWaitpid t pid status options = some (k', r)
  | .resume => ∃ t call r, k.sched.current = some t ∧ k.ctl t = .wait .asleep call ∧
      k.waitResume t call = some (k', r)
  | .wakeup q => k.wakeup q = some k'
  | .ttyInput tty c => k.ttyInputPut tty c = some k'
  | .outside => k'.sched = k.sched ∧ k'.waits = k.waits ∧ k'.ctl = k.ctl

/-- `work` by the current task, if it runs in user mode. -/
def byUser (k : Kernel) (work : Slot → Option Kernel) : Option Kernel :=
  k.sched.current.bind fun t => if k.ctl t = .user then work t else none

/-- The step as a function; `outside` is not one. -/
def exec (k : Kernel) : SchedEvent → Option Kernel
  | .kernelExec filename ttyId load => (schedKernelExec k filename ttyId load).map Prod.fst
  | .fork => byUser k fun _ => (schedFork k).map Prod.fst
  | .schedule =>
      if k.sched.current.all fun t => k.ctl t = .user then k.schedule else none
  | .exit status => byUser k fun _ => schedExit k status
  | .kill pid sig => (schedKill k pid sig).map Prod.fst
  | .ttyRead tty count => byUser k fun t => (k.ttyRead t tty count).map Prod.fst
  | .waitpid pid status options =>
      byUser k fun t => (k.schedWaitpid t pid status options).map Prod.fst
  | .resume =>
      k.sched.current.bind fun t =>
        match k.ctl t with
        | .wait .asleep call => (k.waitResume t call).map Prod.fst
        | _ => none
  | .wakeup q => k.wakeup q
  | .ttyInput tty c => k.ttyInputPut tty c
  | .outside => none

theorem byUser_eq_some {k k' : Kernel} {work : Slot → Option Kernel}
    (h : byUser k work = some k') : ∃ t, k.AtUser t ∧ work t = some k' := by
  obtain ⟨t, hcur, h⟩ := Option.bind_eq_some_iff.mp h
  split at h
  · next huser => exact ⟨t, ⟨hcur, huser⟩, h⟩
  · cases h

theorem step_of_map {α : Type} {k' : Kernel} {r : Option (Kernel × α)}
    (h : r.map Prod.fst = some k') : ∃ x, r = some (k', x) := by
  obtain ⟨⟨k₁, x⟩, hr, rfl⟩ := Option.map_eq_some_iff.mp h
  exact ⟨x, hr⟩

theorem step_of_exec {k k' : Kernel} {e : SchedEvent} (h : e.exec k = some k') : e.Step k k' := by
  cases e with
  | kernelExec filename ttyId load => exact step_of_map h
  | fork =>
      obtain ⟨t, ht, hk⟩ := byUser_eq_some h
      exact ⟨⟨t, ht⟩, step_of_map hk⟩
  | schedule =>
      rw [exec] at h
      split at h
      · next huser => exact ⟨fun t ht => by simpa [ht] using huser, h⟩
      · cases h
  | exit status =>
      obtain ⟨t, ht, hk⟩ := byUser_eq_some h
      exact ⟨⟨t, ht⟩, hk⟩
  | kill pid sig => exact step_of_map h
  | ttyRead tty count =>
      obtain ⟨t, ht, hk⟩ := byUser_eq_some h
      obtain ⟨r, hr⟩ := step_of_map hk
      exact ⟨t, r, ht, hr⟩
  | waitpid pid status options =>
      obtain ⟨t, ht, hk⟩ := byUser_eq_some h
      obtain ⟨r, hr⟩ := step_of_map hk
      exact ⟨t, r, ht, hr⟩
  | resume =>
      obtain ⟨t, hcur, h⟩ := Option.bind_eq_some_iff.mp h
      split at h
      · next call hctl =>
          obtain ⟨r, hr⟩ := step_of_map h
          exact ⟨t, call, r, hcur, hctl, hr⟩
      · cases h
  | wakeup q => exact h
  | ttyInput tty c => exact h
  | outside => cases h

/-- The sleepers that the step puts into the run queue. -/
def woken (k : Kernel) : SchedEvent → List Slot
  | .kill pid sig =>
      if sig ≤ 0 ∨ sig > maxSignals then []
      else (taskTableFindTaskByPid k.sched pid).toList.filter fun t =>
        (k.sched.task t).state = .interruptible
  | .wakeup q => k.sleepers q
  | .ttyInput tty _ => if k.ttyHasRoom tty then k.sleepers (.inWaitQueue tty) else []
  | .exit _ => k.sched.current.toList.flatMap k.exitSleepers
  | .resume =>
      k.sched.current.toList.flatMap fun t =>
        if (k.sched.task t).pending ≠ 0 then k.exitSleepers t else []
  | _ => []

/-- No sleeper that the step puts into the run queue is there already. -/
def Fresh (k : Kernel) (e : SchedEvent) : Prop := ∀ t ∈ e.woken k, t ∉ k.runQueueTasks

instance (k : Kernel) (e : SchedEvent) : Decidable (e.Fresh k) := by
  unfold Fresh
  infer_instance

/-- The zombie that the step reaps. -/
def reaped (k : Kernel) : SchedEvent → Option Slot
  | .waitpid pid _ options => k.sched.current.bind fun t => waitpidZombie k t pid options
  | .resume => k.sched.current.bind fun t =>
      match k.ctl t with
      | .wait _ call => if (k.sched.task t).pending = 0 then call.zombie k t else none
      | _ => none
  | _ => none

def sendsSignal : SchedEvent → Bool
  | .kill _ _ => true
  | _ => false

def switches : SchedEvent → Bool
  | .schedule => true
  | _ => false

def resumes : SchedEvent → Bool
  | .resume => true
  | _ => false

/-- The step is a call that has to sleep at once. -/
def waits (k : Kernel) : SchedEvent → Bool
  | .ttyRead tty _ => !ttyInputAvailable (k.ttys tty)
  | .waitpid pid _ options => k.sched.current.any fun t => waitpidWaits k t pid options
  | _ => false

/-- The actions on the lists `v` that the step `e` of the kernel `k` may consist of. -/
def Allows (k : Kernel) (e : SchedEvent) (v : Procs) (a : ProcAction) : Prop :=
  v.Safe a ∧ SchedRep k.sched v ∧
    match a with
    | .kill _ _ => e.sendsSignal
    | .reap _ c => e.reaped k = some c
    | .sleep t _ => e.resumes ∧ v.pending t = 0 ∨ e.waits k
    | .yield => e.switches
    | _ => True

end SchedEvent

def schedMachine : Machine Kernel SchedEvent where
  init k := ∃ bins load, schedInit bins load = some k
  step := SchedEvent.Step

theorem represents_kernelInit (bins : List EmbeddedBin) :
    Represents (kernelInit bins) Procs.empty where
  sched := by
    refine ⟨⟨rfl, rfl, fun _ => rfl, fun _ => rfl, fun _ => rfl, ?_, fun _ => rfl⟩, rfl, rfl, rfl⟩
    exact (Ring.window_zero (id : Slot → Slot)).trans (List.ofFn_id maxProcessCnt)
  ctl _ := rfl
  linked := ⟨fun _ => rfl, fun _ => rfl, fun _ _ => by simp [kernelInit, Procs.empty, WaitHeap.queue]⟩
  entry t point call h := by cases h

theorem represents_schedInit {bins : List EmbeddedBin} {load : Option (BitVec 32 × BitVec 32)}
    {k : Kernel} (hk : schedInit bins load = some k) : Represents k Procs.boot := by
  unfold schedInit at hk
  obtain ⟨⟨k₁, r⟩, hexec, hk⟩ := Option.bind_eq_some_iff.mp hk
  obtain ⟨t, rfl, hk⟩ := Option.bind_eq_some_iff.mp hk
  obtain rfl := Option.some.inj hk
  rcases (represents_kernelInit bins).taskKernelExec Procs.WF.empty hexec with
    ⟨hr, _⟩ | ⟨u, hhead, ⟨hr, h⟩ | ⟨hr, _⟩⟩
  · cases hr
  · obtain rfl : t = u := Option.some.inj hr
    obtain rfl : 0 = t := Option.some.inj hhead
    exact ⟨⟨⟨h.sched.current, rfl, h.sched.state, h.sched.parent, h.sched.pending, h.sched.free,
      h.sched.kids⟩, ⟨h.sched.runq.chain, h.sched.runq.len, h.sched.runq.last⟩⟩, h.ctl, h.linked,
      h.entry⟩
  · cases hr

variable {k k' : Kernel} {v : Procs} {e : SchedEvent} {t p : Slot} {q : WaitQueueRef}

theorem Represents.runQueueTasks (h : Represents k v) : k.runQueueTasks = v.runq :=
  h.sched.runq.chain.walk_eq h.sched.runq.len.ge

theorem Represents.sleepers (h : Represents k v) (hv : v.WaitOk) (q : WaitQueueRef) :
    k.sleepers q = (v.waitq q).filter fun t => (v.state t).sleeping := by
  have hlen : (v.waitq q).length ≤ maxProcessCnt := by
    simpa [Slot] using (hv.nodup q).length_le_card
  have htasks : (v.waitq q).filterMap k.waits.task = v.waitq q := by
    rw [← List.filterMap_some (l := v.waitq q), List.filterMap_filterMap]
    apply List.filterMap_congr
    intro t ht
    obtain ⟨call, hctl, _⟩ := hv.waiting q t (by simpa using ht)
    simpa using h.entry t .asleep call hctl
  rw [Kernel.sleepers, (h.linked.forward q).walk_eq hlen, htasks]
  simp only [h.sched.sleeping]

theorem Represents.wakeSafe (h : Represents k v) (hv : v.WaitOk)
    (hfresh : ∀ t ∈ k.sleepers q, t ∉ k.runQueueTasks) : v.WakeSafe q := by
  intro t ht hsleep
  rw [← h.runQueueTasks]
  apply hfresh t
  rw [h.sleepers hv]
  exact List.mem_filter.mpr ⟨ht, hsleep⟩

theorem Represents.exitSafe (h : Represents k v) (hv : v.WaitOk)
    (hfresh : ∀ u ∈ k.exitSleepers t, u ∉ k.runQueueTasks) :
    v.WakeSafe (.waitExit t) ∧ ∀ p, v.parent t = some p → p ≠ t → v.WakeSafe (.waitChild p) := by
  refine ⟨h.wakeSafe hv fun u hu => hfresh u (List.mem_append_left _ hu), fun p hp hne => ?_⟩
  apply h.wakeSafe hv
  intro u hu
  apply hfresh u
  rw [Kernel.exitSleepers, h.sched.parent, hp]
  simp [hne, hu]

/-- The call made no change to the lists, or one action. -/
private theorem runs_of_action {guard : Procs → ProcAction → Prop} {a : ProcAction} {v' : Procs}
    (hguard : guard v a) (hs : v.Step a v') (h : Represents k' v') :
    ∃ v', procMachine.Runs guard v v' ∧ Represents k' v' :=
  ⟨v', .single hguard hs, h⟩

private theorem runs_of_same {guard : Procs → ProcAction → Prop} (h : Represents k' v) :
    ∃ v', procMachine.Runs guard v v' ∧ Represents k' v' :=
  ⟨v, .refl v, h⟩

theorem Represents.acts (h : Represents k v) (hv : v.WF) (ht : k.AtUser t) : v.Acts t where
  current := h.sched.current.symm.trans ht.current
  unlinked := by
    apply hv.wait.notMem
    intro call hctl
    have huser := (h.ctl t).symm.trans ht.ctl
    rw [hctl] at huser
    cases huser

theorem refines_resume (h : Represents k v) (hv : v.WF) (hfresh : SchedEvent.resume.Fresh k)
    (hs : SchedEvent.resume.Step k k') :
    ∃ v', procMachine.Runs (SchedEvent.resume.Allows k) v v' ∧ Represents k' v' := by
  obtain ⟨t, call, r, hcur, hctl, hk⟩ := hs
  have hcur' := h.sched.current.symm.trans hcur
  have hctl' := (h.ctl t).symm.trans hctl
  have hunlink : procMachine.Runs (SchedEvent.resume.Allows k) v (v.unlink t) :=
    .single (e := .unlink t) ⟨trivial, h.sched, trivial⟩ ⟨hcur', rfl⟩
  rcases eq_or_ne (v.pending t) 0 with hpend | hpend
  · obtain ⟨a, v', ha, hstep, hrep⟩ := h.waitResume hv hcur' hctl' hpend hk
    refine ⟨v', hunlink.tail ⟨?_, (h.unlink t).sched, ?_⟩ hstep, hrep⟩
    · rcases ha with rfl | ⟨c, rfl, _⟩ | ⟨rfl, _⟩ <;> exact trivial
    · rcases ha with rfl | ⟨c, rfl, hc⟩ | ⟨rfl, _⟩
      · exact trivial
      · simp [SchedEvent.reaped, hcur, hctl, h.sched.pending, hpend, hc]
      · exact .inl ⟨rfl, hpend⟩
  · have hwoken : SchedEvent.resume.woken k = k.exitSleepers t := by
      have hpend' : (k.sched.task t).pending ≠ 0 := h.sched.pending t ▸ hpend
      rw [SchedEvent.woken, hcur, Option.toList_some, List.flatMap_singleton, if_pos hpend']
    have hsafe := h.exitSafe (t := t) hv.wait fun u hu => hfresh u (hwoken ▸ hu)
    obtain ⟨p, v', hstep, hrep⟩ := h.waitKilled hv hcur' hpend hsafe.1 hsafe.2 hk
    refine ⟨v', hunlink.tail (e := .exit t p) ⟨⟨hsafe.1.unlink t, fun hne => ?_⟩,
      (h.unlink t).sched, trivial⟩ hstep, hrep⟩
    exact (hsafe.2 p hstep.2.1 hne).unlink t

/-- A step of the scheduler that puts nobody into the run queue twice is a run of
safe actions on the lists. -/
theorem schedMachine_refines (h : Represents k v) (hv : v.WF) (hfresh : e.Fresh k)
    (hs : e.Step k k') : ∃ v', procMachine.Runs (e.Allows k) v v' ∧ Represents k' v' := by
  cases e with
  | kernelExec filename ttyId load =>
      obtain ⟨r, hk⟩ := hs
      rcases h.kernelExec hv hk with hsame | ⟨t, hhead, hrep | hrep⟩
      · exact runs_of_same hsame
      · exact runs_of_action (a := .exec t) ⟨trivial, h.sched, trivial⟩ ⟨hhead, rfl⟩ hrep
      · exact runs_of_action (a := .abort t) ⟨trivial, h.sched, trivial⟩ ⟨hhead, rfl⟩ hrep
  | fork =>
      obtain ⟨⟨p, hp⟩, r, hk⟩ := hs
      have hacts := h.acts hv hp
      rcases h.fork hv hacts.current hk with hsame | ⟨t, hhead, hrep⟩
      · exact runs_of_same hsame
      · exact runs_of_action (a := .fork p t) ⟨trivial, h.sched, trivial⟩ ⟨hacts, hhead, rfl⟩ hrep
  | schedule =>
      obtain ⟨huser, hk⟩ := hs
      have hout : ∀ t, v.current = some t → t ∉ v.runq :=
        fun t ht hmem => hv.run.notCurrent t hmem ht
      obtain ⟨v', hv', hrep⟩ := h.schedule hout hk
      refine runs_of_action (a := .yield) ⟨trivial, h.sched, rfl⟩ ⟨fun t ht => ?_, hv'⟩ hrep
      have hcur := h.sched.current.trans ht
      exact h.acts hv ⟨hcur, huser t hcur⟩
  | exit status =>
      obtain ⟨⟨t, ht⟩, hk⟩ := hs
      have hacts := h.acts hv ht
      have hsafe := h.exitSafe (t := t) hv.wait fun u hu => hfresh u (by
        simp [SchedEvent.woken, ht.current, hu])
      obtain ⟨p, v', hpar, hs', hrep⟩ := h.exit hv hacts.current hsafe.1 hsafe.2 hk
      exact runs_of_action (a := .exit t p) ⟨⟨hsafe.1, hsafe.2 p hpar⟩, h.sched, trivial⟩
        ⟨hacts, hpar, hs'⟩ hrep
  | kill pid sig =>
      obtain ⟨r, hk⟩ := hs
      have hsafe : ∀ t, 0 < sig → sig ≤ maxSignals → taskTableFindTaskByPid k.sched pid = some t →
          v.state t = .interruptible → t ∉ v.runq := by
        intro t hpos hmax hfind hint
        rw [← h.runQueueTasks]
        apply hfresh t
        rw [SchedEvent.woken, if_neg (by omega), hfind]
        simp [h.sched.state, hint]
      rcases h.kill hsafe hk with hsame | ⟨t, bits, hout, hrep⟩
      · exact runs_of_same hsame
      · exact runs_of_action (a := .kill t bits) ⟨hout, h.sched, rfl⟩ rfl hrep
  | ttyRead tty count =>
      obtain ⟨t, r, ht, hk⟩ := hs
      obtain ⟨a, v', ha, hs', hrep⟩ := h.waitEvent hv (h.acts hv ht) (by simp) hk
      refine runs_of_action ⟨?_, h.sched, ?_⟩ hs' hrep
      · rcases ha with rfl | ⟨c, rfl, _⟩ | ⟨rfl, _⟩ <;> exact trivial
      · rcases ha with rfl | ⟨c, rfl, hc⟩ | ⟨rfl, hcond⟩
        · exact trivial
        · cases hc
        · exact .inr (by simpa [SchedEvent.waits, WaitCall.cond] using hcond)
  | waitpid pid status options =>
      obtain ⟨t, r, ht, hk⟩ := hs
      rcases h.waitpid hv (h.acts hv ht) ((h.ctl t).symm.trans ht.ctl) hk with
        hsame | ⟨a, v', ha, hs', hrep⟩
      · exact runs_of_same hsame
      refine runs_of_action ⟨?_, h.sched, ?_⟩ hs' hrep
      · rcases ha with rfl | ⟨c, rfl, _⟩ | ⟨⟨call, rfl⟩, _⟩ <;> exact trivial
      · rcases ha with rfl | ⟨c, rfl, hc⟩ | ⟨⟨call, rfl⟩, hwaits⟩
        · exact trivial
        · simp [SchedEvent.reaped, ht.current, hc]
        · exact .inr (by simp [SchedEvent.waits, ht.current, hwaits])
  | resume => exact refines_resume h hv hfresh hs
  | wakeup q =>
      have hsafe := h.wakeSafe hv.wait hfresh
      exact runs_of_action (a := .wake q) ⟨hsafe, h.sched, trivial⟩ rfl (h.wakeup hv.wait hsafe hs)
  | ttyInput tty c =>
      change k.ttyInputPut tty c = some k' at hs
      rw [Kernel.ttyInputPut] at hs
      split at hs
      · exact runs_of_same (Option.some.inj hs ▸ h)
      · next hroom =>
          have hsafe := h.wakeSafe (q := .inWaitQueue tty) hv.wait fun u hu => hfresh u (by
            simp [SchedEvent.woken, not_not.mp hroom, hu])
          have hput (ring : Tty) : Represents (k.setTty tty ring) v := h.congr rfl rfl rfl
          exact runs_of_action (a := .wake (.inWaitQueue tty)) ⟨hsafe, h.sched, trivial⟩ rfl
            ((hput _).wakeup hv.wait hsafe hs)
  | outside =>
      obtain ⟨hsched, hwaits, hctl⟩ := hs
      exact runs_of_same (h.congr hsched hwaits hctl)

/-- Runs that put nobody into the run queue twice are runs of safe actions on the
lists, which may be restricted further by what `guard` asks of the steps. -/
theorem schedMachine_simulation {guard : Kernel → SchedEvent → Prop}
    (guard' : Procs → ProcAction → Prop) (hsafe : ∀ v a, guard' v a → v.Safe a)
    (hguard : ∀ k v v' e a, procMachine.Reaches guard' v → Represents k v → guard k e →
      e.Fresh k ∧ (e.Allows k v' a → guard' v' a))
    (hk : schedMachine.Reaches guard k) : ∃ v, procMachine.Reaches guard' v ∧ Represents k v := by
  apply hk.simulation
  · rintro k ⟨bins, load, hk⟩
    exact ⟨Procs.boot, rfl, represents_schedInit hk⟩
  · intro k v e k' hv h he hs
    have hfresh := (hguard k v v e .yield hv h he).1
    obtain ⟨v', hrun, h'⟩ := schedMachine_refines h (procMachine_wf hsafe hv) hfresh hs
    exact ⟨v', hrun.mono fun w a => (hguard k v w e a hv h he).2, h'⟩

/-- The state after `es`, from the boot of a kernel with a swapper and a shell. -/
def afterRun (guard : Kernel → SchedEvent → Prop) [∀ k e, Decidable (guard k e)]
    (es : List SchedEvent) : Option Kernel :=
  (schedInit shellBins (some (0, 0))).bind (Machine.execAll (fun k e => e.exec k) guard es)

theorem reaches_afterRun {guard : Kernel → SchedEvent → Prop} [∀ k e, Decidable (guard k e)]
    {es : List SchedEvent} {k : Kernel} (h : afterRun guard es = some k) :
    schedMachine.Reaches guard k := by
  obtain ⟨k₀, hinit, hrun⟩ := Option.bind_eq_some_iff.mp h
  exact Machine.Reaches.execAll SchedEvent.step_of_exec (.init ⟨_, _, hinit⟩) hrun

/-- The shell runs, has forked, and sleeps in a read of its terminal, so that its
child has the processor. -/
def readerSleeps : List SchedEvent :=
  [.kernelExec (cstr "/bin/sh") 0 (some (0, 0)), .schedule, .fork, .ttyRead 0 1]

end Punix
