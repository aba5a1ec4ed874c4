import Punix.Kernel.ProcessTree

/-!
Exit and `sched_waitpid`. A parent that waits for one child is on the `wait_exit`
queue of that child, one that waits for any child on its own `wait_child` queue.
An exit empties both queues, so that nobody is left waiting for a child that has
ended, whichever of the two comes first.
-/

namespace Punix

open Lib

namespace Procs

attribute [local grind =] Function.update_apply

variable {v v' : Procs} {a : ProcAction} {t p c : Slot}

/-- A task that waits for any child has no zombie among its children. -/
def Attends (v : Procs) : Prop :=
  ∀ p, v.waitq (.waitChild p) ≠ [] → ∀ c ∈ v.kids p, v.state c ≠ .zombie

/-- Fewer waiters, no new zombies. -/
theorem Attends.mono (h : v.Attends)
    (hwaitq : ∀ p, v'.waitq (.waitChild p) ≠ [] → v.waitq (.waitChild p) ≠ [])
    (hkids : ∀ p, ∀ c ∈ v'.kids p, v'.state c = .zombie → c ∈ v.kids p ∧ v.state c = .zombie) :
    v'.Attends := by
  intro p hwait c hc hzombie
  obtain ⟨hold, hzombie'⟩ := hkids p c hc hzombie
  exact h p (hwaitq p hwait) c hold hzombie'

/-- A context switch ends nobody. -/
theorem zombie_of_schedule (hs : v.schedule = some v') (hc : v'.state c = .zombie) :
    v.state c = .zombie := by
  obtain ⟨next, _, hcase⟩ := schedule_cases hs
  rcases hcase with ⟨_, _, _, _, rfl⟩ | ⟨_, rfl⟩ | ⟨prev, _, _, rfl⟩
  · exact hc
  · simp only [Procs.switchTo, Procs.setState] at hc
    grind
  · split at hc <;> simp only [Procs.switchTo, Procs.push, Procs.setState] at hc <;> grind

theorem Attends.schedule (h : v.Attends) (hs : v.schedule = some v') : v'.Attends := by
  obtain ⟨hkids, _, hwaitq, _⟩ := schedule_frame hs
  apply h.mono
  · intro p
    rw [hwaitq]
    exact id
  · intro p c hc hzombie
    rw [hkids] at hc
    exact ⟨hc, zombie_of_schedule hs hzombie⟩

/-- The exit of `t` empties the queue of its parent. -/
theorem Attends.die (h : v.Attends) (hv : v.TreeOk) (hpar : v.parent t = some p) :
    (v.die t p).Attends := by
  intro q hwait c hc hzombie
  rw [kids_die] at hc
  rw [waitq_die] at hwait
  rw [state_die] at hzombie
  obtain ⟨hparent, hne⟩ := hv.parent q c hc
  rcases eq_or_ne c t with rfl | hct
  · obtain rfl : p = q := Option.some.inj (hpar.symm.trans hparent)
    simp [hne.symm] at hwait
  · rw [Function.update_of_ne hct] at hzombie
    refine h q (fun hnil => hwait ?_) c hc hzombie
    rw [hnil, ite_self]

theorem Attends.step (h : v.Attends) (hv : v.WF) (hs : v.Step a v') : v'.Attends := by
  cases a with
  | exec t =>
      obtain ⟨_, rfl⟩ := hs
      apply h.mono
      · exact fun _ => id
      · intro p c hc hzombie
        simp only [Procs.push, Procs.take, Procs.setCtl, Procs.setState] at hc hzombie
        grind
  | abort t =>
      obtain ⟨_, rfl⟩ := hs
      apply h.mono
      · exact fun _ => id
      · intro p c hc hzombie
        simp only [Procs.release, Procs.take, Procs.setCtl, Procs.setState] at hc hzombie
        grind
  | fork p t =>
      obtain ⟨_, _, rfl⟩ := hs
      apply h.mono
      · exact fun _ => id
      · intro q c hc hzombie
        simp only [Procs.push, Procs.adopt, Procs.take, Procs.setCtl, Procs.setState] at hc hzombie
        grind
  | yield => exact h.schedule hs.2
  | wake q =>
      subst hs
      apply h.mono
      · intro p
        simp only [Procs.wake]
        grind
      · exact fun _ _ hc hzombie => ⟨hc, hzombie⟩
  | kill t bits =>
      subst hs
      unfold Procs.kill
      dsimp only
      split <;> exact h
  | unlink t =>
      obtain ⟨_, rfl⟩ := hs
      apply h.mono
      · intro p hne hnil
        simp [Procs.unlink, hnil] at hne
      · exact fun _ _ hc hzombie => ⟨hc, hzombie⟩
  | done t =>
      obtain ⟨_, rfl⟩ := hs
      exact h
  | reap p c =>
      obtain ⟨_, _, _, rfl⟩ := hs
      apply h.mono
      · exact fun _ => id
      · intro q u hu hzombie
        simp only [Procs.reap, Procs.release, Procs.setCtl, Procs.setState] at hu hzombie
        grind
  | sleep t call =>
      obtain ⟨ht, _, hnone, hs⟩ := hs
      have hrun := hv.current t ht.current
      have hasleep : (v.fallAsleep t call).Attends := by
        intro p hwait c hc hzombie
        have hold : v.state c = .zombie := by
          simp only [Procs.fallAsleep, Procs.setCtl, Procs.setState] at hzombie
          grind
        rcases eq_or_ne (call.queue t) (.waitChild p) with heq | hne
        · cases call with
          | anyChild status =>
              obtain rfl : t = p := by simpa [WaitCall.queue] using heq
              exact hnone status rfl c hc hold
          | ttyInput tty count => cases heq
          | childExit child status => cases heq
        · refine h p ?_ c hc hold
          simpa [Procs.fallAsleep, hne.symm] using hwait
      exact hasleep.schedule hs
  | exit t p =>
      obtain ⟨_, hpar, hs⟩ := hs
      exact (h.die hv.tree hpar).schedule hs

end Procs

/-- Safe actions that are not signals. -/
structure ProcAction.Silent (v : Procs) (a : ProcAction) : Prop where
  safe : v.Safe a
  noSignal : ∀ t bits, a ≠ .kill t bits

theorem silent_of_reaches {v : Procs} (h : procMachine.Reaches ProcAction.Silent v) :
    v.WF ∧ v.Calm ∧ v.Attends := by
  apply h.invariant
  · rintro _ rfl
    refine ⟨Procs.WF.boot, fun q t ht => ?_, fun p hwait => ?_⟩
    · cases ht
    · exact absurd rfl hwait
  · rintro v a v' ⟨hv, hcalm, hattends⟩ ha hs
    exact ⟨hv.step ha.safe hs, hcalm.step hv ha.noSignal hs, hattends.step hv hs⟩

/-- Every run without signals is a run of safe actions on the lists. -/
theorem silent_simulation {k : Kernel}
    (hk : schedMachine.Reaches (fun _ e => e.sendsSignal = false) k) :
    ∃ v, procMachine.Reaches ProcAction.Silent v ∧ Represents k v := by
  apply schedMachine_simulation ProcAction.Silent (fun _ _ ha => ha.safe) _ hk
  intro k v v' e a hv h he
  obtain ⟨hwf, hcalm, _⟩ := silent_of_reaches hv
  refine ⟨h.fresh hwf hcalm he, fun ha => ⟨ha.1, ?_⟩⟩
  rintro t bits rfl
  exact Bool.noConfusion (he.symm.trans ha.2.2)

/-- No task that is neither current nor in the run queue is linked in the queue of
a child that has ended, or in its own queue while one of its children has. -/
def NoMissedExit (k : Kernel) : Prop :=
  ∀ t, k.sched.current ≠ some t → t ∉ k.runQueueTasks →
    (∀ c, k.waits.queue t = some (.waitExit c) → (k.sched.task c).state ≠ .zombie) ∧
    (k.waits.queue t = some (.waitChild t) → ∃ children,
      Chain (fun u => (k.sched.task u).nextSibling) (k.sched.task t).children children ∧
      ∀ c ∈ children, (k.sched.task c).state ≠ .zombie)

theorem Represents.noMissedExit {k : Kernel} {v : Procs} (h : Represents k v) (hv : v.WF)
    (hattends : v.Attends) : NoMissedExit k := by
  intro t _ _
  constructor
  · intro c hqueue hzombie
    have hmem := (h.linked.queue_iff t _).mp hqueue
    rw [h.sched.state] at hzombie
    rw [hv.ended.notAwaited c (.inl hzombie)] at hmem
    cases hmem
  · intro hqueue
    have hmem := (h.linked.queue_iff t _).mp hqueue
    refine ⟨v.kids t, h.sched.kids t, fun c hc => ?_⟩
    rw [h.sched.state]
    exact hattends t (List.ne_nil_of_mem hmem) c hc

theorem noMissedExit_of_silent {k : Kernel}
    (hk : schedMachine.Reaches (fun _ e => e.sendsSignal = false) k) : NoMissedExit k := by
  obtain ⟨v, hv, h⟩ := silent_simulation hk
  obtain ⟨hwf, _, hattends⟩ := silent_of_reaches hv
  exact h.noMissedExit hwf hattends

/-- The shell waits for any child, and then its child exits. -/
theorem noMissedExit_waitedFirst :
    ∃ k, afterRun (fun _ e => e.sendsSignal = false) [.kernelExec (cstr "/bin/sh") 0 (some (0, 0)),
      .schedule, .fork, .waitpid (-1) true 0, .exit 3] = some k ∧ NoMissedExit k := by
  obtain ⟨k, hk⟩ := Option.isSome_iff_exists.mp
    (show (afterRun (fun _ e => e.sendsSignal = false)
      [.kernelExec (cstr "/bin/sh") 0 (some (0, 0)), .schedule, .fork, .waitpid (-1) true 0,
        .exit 3]).isSome by decide +kernel)
  exact ⟨k, hk, noMissedExit_of_silent (reaches_afterRun hk)⟩

end Punix
