import Punix.Kernel.SchedMachine

/-!
Signals and sleep. A signal puts its target into the run queue, so that a
sleeper with a pending signal is on its way to the processor. Two things break
that: a task may go to sleep with a signal it already has, because the loop of
`wait_event` looks at `signal.pending` only behind `sched_schedule`, and
`sched_schedule` drops the swapper from the run queue when the running task
keeps the processor.
-/

namespace Punix

open Lib

namespace Procs

attribute [local grind =] Function.update_apply

variable {v v' : Procs} {a : ProcAction} {t p c : Slot}

/-- No task sleeps outside the run queue with a pending signal. -/
def Heard (v : Procs) : Prop :=
  ∀ t, v.state t = .interruptible → v.current ≠ some t → t ∉ v.runq → v.pending t = 0

/-- A context switch that keeps the running task does not drop a sleeper with a
pending signal. -/
def KeepsSwapper (v : Procs) : Prop :=
  ∀ t, v.current.isSome → v.runq.head? = some t → v.swapper = some t →
    v.state t = .interruptible → v.pending t = 0

/-- Fewer sleepers, a longer run queue. -/
theorem Heard.mono (h : v.Heard)
    (hstate : ∀ t, v'.state t = .interruptible → v'.current ≠ some t →
      v.state t = .interruptible ∧ v.current ≠ some t)
    (hrunq : ∀ t ∈ v.runq, t ∈ v'.runq)
    (hpending : ∀ t, v'.state t = .interruptible → v'.pending t = v.pending t) : v'.Heard := by
  intro t hint hcur hout
  obtain ⟨hint', hcur'⟩ := hstate t hint hcur
  rw [hpending t hint]
  exact h t hint' hcur' fun hmem => hout (hrunq t hmem)

/-- What sleeps behind a context switch slept before it, or was current and went
to sleep without a signal. -/
theorem Heard.schedule (h : v.Heard)
    (hcur : ∀ t, v.current = some t → v.state t = .interruptible → v.pending t = 0)
    (hswap : ∀ t, v.current = some t → v.state t = .running → v.KeepsSwapper)
    (hs : v.schedule = some v') : v'.Heard := by
  obtain ⟨next, hnext, hcase⟩ := schedule_cases hs
  -- only the front of the run queue leaves it
  have hfront : ∀ t, t ∈ v.runq → t ∉ v.runq.tail → t = next := by
    intro t hmem hout
    cases hq : v.runq with
    | nil => simp [hq] at hmem
    | cons first rest =>
        have hfirst : first = next := by simpa [hq] using hnext
        rw [hq] at hmem hout
        exact ((List.mem_cons.mp hmem).resolve_right hout).trans hfirst
  have hold : ∀ t, v.state t = .interruptible → t ≠ next → t ∉ v.runq.tail → v.pending t = 0 := by
    intro t hint hne hout
    rcases eq_or_ne v.current (some t) with heq | hother
    · exact hcur t heq hint
    · exact h t hint hother fun hmem => hne (hfront t hmem hout)
  intro t hint hother hout
  rcases hcase with ⟨prev, hprev, hstay, hrun, rfl⟩ | ⟨_, rfl⟩ | ⟨prev, hprev, _, rfl⟩
  · rcases eq_or_ne t next with rfl | hne
    · rcases Option.or_eq_some_iff.mp hnext with hhead | ⟨hnil, _⟩
      · exact hswap prev hprev hrun t (by simp [hprev]) hhead hstay.symm hint
      · exact h t hint hother (by simp [List.head?_eq_none_iff.mp hnil])
    · exact hold t hint hne hout
  · have hne : t ≠ next := by
      rintro rfl
      exact hother rfl
    have hint' : v.state t = .interruptible := by
      simpa [Procs.switchTo, Procs.setState, hne] using hint
    exact hold t hint' hne hout
  · have hne : t ≠ next := by
      rintro rfl
      exact hother rfl
    have hnp : t ≠ prev := by
      rintro rfl
      split at hint <;> simp [Procs.switchTo, Procs.push, Procs.setState, hne] at hint
    have hint' : v.state t = .interruptible := by
      split at hint <;> simpa [Procs.switchTo, Procs.push, Procs.setState, hne, hnp] using hint
    have hout' : t ∉ v.runq.tail := by
      intro hmem
      apply hout
      split
      · exact List.mem_append_left _ hmem
      · exact hmem
    have hpend := hold t hint' hne hout'
    split <;> exact hpend

/-- A task that is started is queued. -/
theorem Heard.take (h : v.Heard) (t p : Slot) : (v.take t p).Heard := by
  apply h.mono
  · intro u hint hcur
    simp only [Procs.take, Procs.setCtl, Procs.setState] at hint hcur
    grind
  · exact fun _ hu => hu
  · intro u hint
    simp only [Procs.take, Procs.setCtl, Procs.setState] at hint ⊢
    grind

theorem Heard.push (h : v.Heard) (t : Slot) : (v.push t).Heard :=
  h.mono (fun _ hint hcur => ⟨hint, hcur⟩) (fun _ hu => List.mem_append_left _ hu) fun _ _ => rfl

theorem Heard.release (h : v.Heard) (t : Slot) : (v.release t).Heard := by
  apply h.mono
  · intro u hint hcur
    simp only [Procs.release, Procs.setState] at hint hcur
    grind
  · exact fun _ hu => hu
  · exact fun _ _ => rfl

theorem Heard.wake (h : v.Heard) (q : WaitQueueRef) : (v.wake q).Heard :=
  h.mono (fun _ hint hcur => ⟨hint, hcur⟩) (fun _ hu => List.mem_append_left _ hu) fun _ _ => rfl

/-- A signal puts a sleeper into the run queue. -/
theorem Heard.kill (h : v.Heard) (t : Slot) (bits : BitVec 32) : (v.kill t bits).Heard := by
  have hpending (u : Slot) (hne : u ≠ t) :
      Function.update v.pending t (v.pending t ||| bits) u = v.pending u :=
    Function.update_of_ne hne _ _
  unfold Procs.kill
  dsimp only
  split
  · intro u hint hcur hout
    have hne : u ≠ t := by
      rintro rfl
      exact hout (List.mem_append_right _ (List.mem_singleton_self u))
    exact (hpending u hne).trans (h u hint hcur fun hmem => hout (List.mem_append_left _ hmem))
  · next hawake =>
      intro u hint hcur hout
      have hne : u ≠ t := fun heq => hawake (heq ▸ hint)
      exact (hpending u hne).trans (h u hint hcur hout)

theorem Heard.die (h : v.Heard) (hcur : v.current = some t) (p : Slot) : (v.die t p).Heard := by
  have hrunq : ∀ u ∈ v.runq, u ∈ (v.die t p).runq := by
    intro u hu
    unfold Procs.die
    dsimp only
    split <;> simp [Procs.setCtl, Procs.wake, Procs.setState, hu]
  apply h.mono _ hrunq
  · intro u _
    rw [pending_die]
  · intro u hint _
    rw [state_die] at hint
    grind

theorem Heard.step (h : v.Heard) (hv : v.WF)
    (hsleep : ∀ t call, a = .sleep t call → v.pending t = 0) (hyield : a = .yield → v.KeepsSwapper)
    (hs : v.Step a v') : v'.Heard := by
  cases a with
  | exec t =>
      obtain ⟨_, rfl⟩ := hs
      exact (h.take t t).push t
  | abort t =>
      obtain ⟨_, rfl⟩ := hs
      exact (h.take t t).release t
  | fork p t =>
      obtain ⟨_, _, rfl⟩ := hs
      exact Heard.push (v := (v.take t p).adopt p t) (h.take t p) t
  | yield =>
      apply h.schedule _ (fun _ _ _ => hyield rfl) hs.2
      intro t ht hint
      rw [hv.current t ht] at hint
      cases hint
  | wake q =>
      subst hs
      exact h.wake q
  | kill t bits =>
      subst hs
      exact h.kill t bits
  | unlink t =>
      obtain ⟨_, rfl⟩ := hs
      exact h
  | done t =>
      obtain ⟨_, rfl⟩ := hs
      exact h
  | reap p c =>
      obtain ⟨_, _, _, rfl⟩ := hs
      exact Heard.release (v := { v.setCtl p .user with
        kids := Function.update v.kids p ((v.kids p).erase c) }) h c
  | sleep t call =>
      obtain ⟨ht, _, _, hs⟩ := hs
      have hcur (u : Slot) (hu : v.current = some u) : t = u :=
        Option.some.inj (ht.current.symm.trans hu)
      have hasleep : (v.fallAsleep t call).Heard := by
        apply h.mono
        · intro u hint hother
          refine ⟨?_, hother⟩
          have hne : u ≠ t := fun heq => hother (heq ▸ ht.current)
          simpa [Procs.fallAsleep, Procs.setCtl, Procs.setState, hne] using hint
        · exact fun _ hu => hu
        · exact fun _ _ => rfl
      apply hasleep.schedule _ _ hs
      · intro u hu _
        obtain rfl := hcur u hu
        exact hsleep t call rfl
      · intro u hu hrun
        obtain rfl := hcur u hu
        simp [Procs.fallAsleep, Procs.setCtl, Procs.setState] at hrun
  | exit t p =>
      obtain ⟨ht, _, hs⟩ := hs
      apply (h.die ht.current p).schedule _ _ hs
      · intro u hu
        rw [current_die] at hu
        cases hu
      · intro u hu
        rw [current_die] at hu
        cases hu

end Procs

/-- The step puts no sleeper into the run queue twice, sends no task to sleep that
has a signal already, and does not drop a swapper with a signal from the run
queue. -/
structure SchedEvent.Attentive (k : Kernel) (e : SchedEvent) : Prop where
  fresh : e.Fresh k
  sleeps : ∀ t, k.sched.current = some t → e.waits k → (k.sched.task t).pending = 0
  yields : ∀ t, e.switches → k.sched.current.isSome → k.runQueueTasks.head? = some t →
    k.sched.swapper = some t → (k.sched.task t).state = .interruptible →
      (k.sched.task t).pending = 0

structure ProcAction.Attentive (v : Procs) (a : ProcAction) : Prop where
  safe : v.Safe a
  sleeps : ∀ t call, v.current = some t → a = .sleep t call → v.pending t = 0
  yields : a = .yield → v.KeepsSwapper

theorem attentive_of_reaches {v : Procs} (h : procMachine.Reaches ProcAction.Attentive v) :
    v.WF ∧ v.Heard := by
  apply h.invariant
  · rintro _ rfl
    refine ⟨Procs.WF.boot, fun t _ _ _ => ?_⟩
    simp [Procs.boot, Procs.take, Procs.setCtl, Procs.setState, Procs.empty]
  · rintro v a v' ⟨hv, hheard⟩ ha hs
    refine ⟨hv.step ha.safe hs, hheard.step hv ?_ ha.yields hs⟩
    rintro t call rfl
    exact ha.sleeps t call hs.1.current rfl

/-- A task that sleeps interruptibly, neither current nor in the run queue, has no
pending signal. -/
def SignalsHeard (k : Kernel) : Prop :=
  ∀ t, (k.sched.task t).state = .interruptible → k.sched.current ≠ some t →
    t ∉ k.runQueueTasks → (k.sched.task t).pending = 0

theorem Represents.signalsHeard {k : Kernel} {v : Procs} (h : Represents k v) (hv : v.Heard) :
    SignalsHeard k := by
  intro t hint hcur hout
  rw [h.sched.state] at hint
  rw [h.sched.current] at hcur
  rw [h.runQueueTasks] at hout
  rw [h.sched.pending]
  exact hv t hint hcur hout

/-- Runs in which every step is attentive. -/
theorem signalsHeard_of_attentive {k : Kernel}
    (hk : schedMachine.Reaches SchedEvent.Attentive k) : SignalsHeard k := by
  obtain ⟨v, hv, h⟩ := schedMachine_simulation ProcAction.Attentive
    (fun _ _ ha => ha.safe) (by
      intro k v v' e a _ h he
      refine ⟨he.fresh, fun ha => ⟨ha.1, ?_, ?_⟩⟩
      · rintro t call hcur rfl
        rcases ha.2.2 with ⟨_, hpend⟩ | hwaits
        · exact hpend
        · rw [← ha.2.1.pending]
          exact he.sleeps t (ha.2.1.current.trans hcur) hwaits
      · rintro rfl t hcur hhead hswap hint
        have hrunq : k.runQueueTasks = v'.runq :=
          ha.2.1.runq.chain.walk_eq ha.2.1.runq.len.ge
        rw [← ha.2.1.pending]
        apply he.yields t ha.2.2
        · rw [ha.2.1.current]
          exact hcur
        · rw [hrunq]
          exact hhead
        · rw [ha.2.1.swapper]
          exact hswap
        · rw [ha.2.1.state]
          exact hint) hk
  exact h.signalsHeard (attentive_of_reaches hv).2

instance (k : Kernel) (e : SchedEvent) : Decidable (e.Attentive k) :=
  decidable_of_iff (e.Fresh k ∧
    (∀ t, k.sched.current = some t → e.waits k → (k.sched.task t).pending = 0) ∧
    (∀ t, e.switches → k.sched.current.isSome → k.runQueueTasks.head? = some t →
      k.sched.swapper = some t → (k.sched.task t).state = .interruptible →
        (k.sched.task t).pending = 0))
    ⟨fun ⟨h, h', h''⟩ => ⟨h, h', h''⟩, fun h => ⟨h.fresh, h.sleeps, h.yields⟩⟩

/-- A reader is killed in its sleep. -/
theorem signalsHeard_killed :
    ∃ k, afterRun SchedEvent.Attentive (readerSleeps ++ [.kill 1 15]) = some k ∧
      SignalsHeard k := by
  obtain ⟨k, hk⟩ := Option.isSome_iff_exists.mp
    (show (afterRun SchedEvent.Attentive (readerSleeps ++ [.kill 1 15])).isSome by decide +kernel)
  exact ⟨k, hk, signalsHeard_of_attentive (reaches_afterRun hk)⟩

/-- The shell kills itself, and then reads its terminal. -/
theorem signals_unheard : ¬ ∀ k, schedMachine.Reachable k → SignalsHeard k := by
  intro hall
  have hrun : (afterRun (fun _ _ => True) [.kernelExec (cstr "/bin/sh") 0 (some (0, 0)), .schedule,
      .kill 1 15, .ttyRead 0 1]).map (fun k => ((k.sched.task 1).state, k.sched.current,
        k.runQueueTasks, (k.sched.task 1).pending)) =
          some (.interruptible, some 0, [], 16384) := by decide +kernel
  obtain ⟨k, hk, hstate⟩ := Option.map_eq_some_iff.mp hrun
  simp only [Prod.mk.injEq] at hstate
  obtain ⟨hint, hcur, hrunq, hpending⟩ := hstate
  have hzero := hall k (reaches_afterRun hk) 1 hint (by simp [hcur]) (by simp [hrunq])
  rw [hpending] at hzero
  cases hzero

end Punix
