import Punix.Kernel.SchedMachine

/-!
The tree of processes, which is spread over the `parent`, `children` and
`next_sibling` pointers of reused slots. Fork, exit and reaping keep the links of
all other tasks right, but for one case: a task that is reaped while it has
children leaves them with a parent that is no longer there.
-/

namespace Punix

open Lib

namespace Procs

attribute [local grind =] Function.update_apply

variable {v v' : Procs} {a : ProcAction} {t p c : Slot} {q : WaitQueueRef}

/-- Neither the task that gets the processor nor the one that gives it away has a
free slot. -/
theorem Laws.pooled_of_schedule (h : v.Laws)
    (hcur : ∀ t, v.current = some t → v.state t ≠ .pooled) (hs : v.schedule = some v')
    (ht : v.state t = .pooled) : v'.state t = .pooled := by
  obtain ⟨next, hnext, hcase⟩ := schedule_cases hs
  have hlive : v.state next ≠ .pooled := by
    intro hpool
    rcases Option.or_eq_some_iff.mp hnext with hhead | ⟨_, hswap⟩
    · exact h.notMem_runq (.inr hpool) (List.mem_of_mem_head? hhead)
    · exact (h.slot.swapper next hswap).1 hpool
  have hne : t ≠ next := fun heq => hlive (heq ▸ ht)
  rcases hcase with ⟨_, _, _, _, rfl⟩ | ⟨_, rfl⟩ | ⟨prev, hprev, _, rfl⟩
  · exact ht
  · simpa [Procs.switchTo, Procs.setState, hne] using ht
  · have hother : t ≠ prev := fun heq => hcur prev hprev (heq ▸ ht)
    split <;> simpa [Procs.switchTo, Procs.push, Procs.setState, hne, hother] using ht

/-- A task on a wait queue is not in the run queue. -/
def Calm (v : Procs) : Prop := ∀ q, ∀ t ∈ v.waitq q, t ∉ v.runq

theorem Calm.wakeSafe (h : v.Calm) (q : WaitQueueRef) : v.WakeSafe q := fun t ht _ => h q t ht

theorem Calm.push (h : v.Calm) (ht : ∀ q, t ∉ v.waitq q) : (v.push t).Calm := by
  intro q u hu hmem
  rcases List.mem_append.mp hmem with hmem | hmem
  · exact h q u hu hmem
  · exact ht q (List.mem_singleton.mp hmem ▸ hu)

theorem Calm.wake (h : v.Calm) (hw : v.WaitOk) (q : WaitQueueRef) : (v.wake q).Calm := by
  intro q' u hu hmem
  rcases eq_or_ne q' q with rfl | hne
  · simp [Procs.wake] at hu
  · have hu' : u ∈ v.waitq q' := by simpa [Procs.wake, hne] using hu
    rcases List.mem_append.mp hmem with hmem | hmem
    · exact h q' u hu' hmem
    · exact hne (hw.queue_unique hu' (List.mem_filter.mp hmem).1)

theorem Calm.schedule (h : v.Calm)
    (hprev : ∀ t, v.current = some t → ¬ (v.state t).sleeping → ∀ q, t ∉ v.waitq q)
    (hs : v.schedule = some v') : v'.Calm := by
  have htail : ({ v with runq := v.runq.tail } : Procs).Calm :=
    fun q t ht hmem => h q t ht (List.mem_of_mem_tail hmem)
  obtain ⟨next, _, hcase⟩ := schedule_cases hs
  rcases hcase with ⟨_, _, _, _, rfl⟩ | ⟨_, rfl⟩ | ⟨prev, hcur, hwake, rfl⟩
  · exact htail
  · exact htail
  · split
    · exact Calm.push (v := ({ v with runq := v.runq.tail } : Procs).setState prev .queued) htail
        (hprev prev hcur hwake)
    · exact htail

theorem Calm.die (h : v.Calm) (hw : v.WaitOk) (t p : Slot) : (v.die t p).Calm := by
  have hfirst : ((v.setState t .zombie).wake (.waitExit t)).Calm :=
    Calm.wake (v := v.setState t .zombie) h (hw.setState t .zombie) _
  unfold Procs.die
  dsimp only
  split
  · exact hfirst.wake ((hw.setState t .zombie).wake _) _
  · exact hfirst

/-- Actions that send no signal put no task from a wait queue into the run queue
without taking it off there. -/
theorem Calm.step (h : v.Calm) (hv : v.WF) (hkill : ∀ t bits, a ≠ .kill t bits)
    (hs : v.Step a v') : v'.Calm := by
  cases a with
  | exec t =>
      obtain ⟨hhead, rfl⟩ := hs
      obtain ⟨_, _, hout, -⟩ := hv.of_mem_free (List.mem_of_mem_head? hhead)
      exact Calm.push (v := v.take t t) h hout
  | abort t =>
      obtain ⟨_, rfl⟩ := hs
      exact h
  | fork p t =>
      obtain ⟨_, hhead, rfl⟩ := hs
      obtain ⟨_, _, hout, -⟩ := hv.of_mem_free (List.mem_of_mem_head? hhead)
      exact Calm.push (v := (v.take t p).adopt p t) h hout
  | yield => exact h.schedule (fun t ht _ => (hs.1 t ht).unlinked) hs.2
  | wake q =>
      subst hs
      exact h.wake hv.wait q
  | kill t bits => exact absurd rfl (hkill t bits)
  | unlink t =>
      obtain ⟨_, rfl⟩ := hs
      exact fun q u hu => h q u (List.mem_of_mem_erase hu)
  | done t =>
      obtain ⟨_, rfl⟩ := hs
      exact h
  | reap p c =>
      obtain ⟨_, _, _, rfl⟩ := hs
      exact h
  | sleep t call =>
      obtain ⟨ht, _, _, hs⟩ := hs
      have hasleep : (v.fallAsleep t call).Calm := by
        intro q u hu hmem
        have hcur : u ≠ t := fun heq => hv.run.notCurrent u hmem (heq ▸ ht.current)
        have hold := h q u
        simp only [Procs.fallAsleep, Procs.setCtl, Procs.setState] at hu hmem
        grind
      apply hasleep.schedule _ hs
      intro u hu hawake
      obtain rfl : t = u := Option.some.inj (ht.current.symm.trans hu)
      simp [Procs.fallAsleep, Procs.setCtl, Procs.setState, SchedState.sleeping] at hawake
  | exit t p =>
      obtain ⟨_, _, hs⟩ := hs
      apply (h.die hv.wait t p).schedule _ hs
      intro u hu
      rw [current_die] at hu
      cases hu

/-- Every task in use is its own parent, or is among the children of its parent. -/
def Family (v : Procs) : Prop :=
  ∀ t, v.state t ≠ .pooled → ∃ p, v.parent t = some p ∧ (p = t ∨ t ∈ v.kids p)

theorem Family.congr (h : v.Family) (hkids : v'.kids = v.kids) (hparent : v'.parent = v.parent)
    (hstate : ∀ t, v.state t = .pooled → v'.state t = .pooled) : v'.Family := by
  intro t ht
  rw [hkids, hparent]
  exact h t fun hpool => ht (hstate t hpool)

/-- Reaping a task without children leaves no orphans. -/
theorem Family.reap (h : v.Family) (hkids : v.kids c = []) (hne : c ≠ p) : (v.reap p c).Family := by
  intro u hu
  have huc : u ≠ c := by
    rintro rfl
    simp [Procs.reap, Procs.release, Procs.setState] at hu
  obtain ⟨r, hpar, hfam⟩ := h u (by
    simpa [Procs.reap, Procs.release, Procs.setState, huc] using hu)
  refine ⟨r, by simpa [Procs.reap, Procs.release, huc] using hpar, ?_⟩
  rcases hfam with hself | hmem
  · exact .inl hself
  · have hrc : r ≠ c := by
      rintro rfl
      simp [hkids] at hmem
    have herase : u ∈ (v.kids r).erase c := (List.mem_erase_of_ne huc).mpr hmem
    right
    simp only [Procs.reap, Procs.release]
    grind

/-- A context switch keeps the families. -/
theorem Family.schedule (h : v.Family) (hv : v.Laws)
    (hcur : ∀ t, v.current = some t → v.state t ≠ .pooled) (hs : v.schedule = some v') :
    v'.Family := by
  obtain ⟨hkids, hparent, -⟩ := schedule_frame hs
  exact h.congr hkids hparent fun t => hv.pooled_of_schedule hcur hs

theorem Family.step (h : v.Family) (hv : v.WF) (hsafe : v.Safe a)
    (hreap : ∀ p c, a = .reap p c → v.kids c = []) (hs : v.Step a v') : v'.Family := by
  cases a with
  | exec t =>
      obtain ⟨_, rfl⟩ := hs
      intro u hu
      have hold := h u
      simp only [Procs.push, Procs.take, Procs.setCtl, Procs.setState] at hu ⊢
      grind
  | abort t =>
      obtain ⟨hhead, rfl⟩ := hs
      obtain ⟨_, _, _, _, hkids, _⟩ := hv.of_mem_free (List.mem_of_mem_head? hhead)
      intro u hu
      have hold := h u
      simp only [Procs.release, Procs.take, Procs.setCtl, Procs.setState] at hu ⊢
      grind
  | fork p t =>
      obtain ⟨_, _, rfl⟩ := hs
      intro u hu
      have hold := h u
      simp only [Procs.push, Procs.adopt, Procs.take, Procs.setCtl, Procs.setState] at hu ⊢
      grind
  | yield =>
      apply h.schedule hv.toLaws _ hs.2
      intro t ht
      simp [hv.current t ht]
  | wake q =>
      subst hs
      exact h
  | kill t bits =>
      subst hs
      unfold Procs.kill
      dsimp only
      split <;> exact h
  | unlink t =>
      obtain ⟨_, rfl⟩ := hs
      exact h
  | done t =>
      obtain ⟨_, rfl⟩ := hs
      exact h
  | reap p c =>
      obtain ⟨_, hkid, _, rfl⟩ := hs
      exact Family.reap (v := v.setCtl p .user) h (hreap p c rfl) (hv.tree.parent p c hkid).2
  | sleep t call =>
      obtain ⟨ht, hcall, _, hs⟩ := hs
      have hrun := hv.current t ht.current
      have hout : t ∉ v.runq := fun hmem => hv.run.notCurrent t hmem ht.current
      have hasleep : (v.fallAsleep t call).Family := by
        have hkids : (v.fallAsleep t call).kids = v.kids := rfl
        apply h.congr hkids rfl
        intro u hu
        have hne : u ≠ t := by
          rintro rfl
          simp [hrun] at hu
        simpa [Procs.fallAsleep, Procs.setCtl, Procs.setState, hne] using hu
      apply hasleep.schedule (hv.fallAsleep hrun hout ht.unlinked hcall) _ hs
      intro u hu
      obtain rfl : t = u := Option.some.inj (ht.current.symm.trans hu)
      simp [Procs.fallAsleep, Procs.setCtl, Procs.setState]
  | exit t p =>
      obtain ⟨ht, _, hs⟩ := hs
      have hrun := hv.current t ht.current
      have hdead : (v.die t p).Family := by
        apply h.congr (kids_die v t p) (parent_die v t p)
        intro u hu
        have hne : u ≠ t := by
          rintro rfl
          simp [hrun] at hu
        simpa [hne] using hu
      apply hdead.schedule (hv.die ht.current ht.unlinked hsafe.1 hsafe.2) _ hs
      intro u hu
      rw [current_die] at hu
      cases hu

end Procs

/-- The step is not a signal, and the zombie that it reaps, if any, has no
children. -/
def SchedEvent.NoOrphans (k : Kernel) (e : SchedEvent) : Prop :=
  e.sendsSignal = false ∧ ∀ c, e.reaped k = some c → (k.sched.task c).children = none

instance (k : Kernel) (e : SchedEvent) : Decidable (e.NoOrphans k) := by
  unfold SchedEvent.NoOrphans
  infer_instance

/-- Safe actions that are not signals, and reap childless tasks only. -/
structure ProcAction.Calm (v : Procs) (a : ProcAction) : Prop where
  safe : v.Safe a
  noSignal : ∀ t bits, a ≠ .kill t bits
  childless : ∀ p c, a = .reap p c → v.kids c = []

theorem calm_of_reaches {v : Procs} (h : procMachine.Reaches ProcAction.Calm v) :
    v.WF ∧ v.Calm ∧ v.Family := by
  apply h.invariant
  · rintro _ rfl
    refine ⟨Procs.WF.boot, fun q t ht => ?_, fun t ht => ⟨0, ?_⟩⟩
    · cases ht
    · have hzero : t = 0 := by
        by_contra hne
        exact ht (Function.update_of_ne hne _ _)
      subst hzero
      exact ⟨rfl, .inl rfl⟩
  · rintro v a v' ⟨hv, hcalm, hfam⟩ ha hs
    exact ⟨hv.step ha.safe hs, hcalm.step hv ha.noSignal hs, hfam.step hv ha.safe ha.childless hs⟩

/-- While no signal is sent every sleeper that is woken is new in the run queue. -/
theorem Represents.fresh {k : Kernel} {v : Procs} {e : SchedEvent} (h : Represents k v)
    (hv : v.WF) (hcalm : v.Calm) (hkill : e.sendsSignal = false) : e.Fresh k := by
  have hsleepers (q : WaitQueueRef) (t : Slot) (ht : t ∈ k.sleepers q) : t ∉ k.runQueueTasks := by
    rw [h.sleepers hv.wait] at ht
    rw [h.runQueueTasks]
    exact hcalm q t (List.mem_filter.mp ht).1
  have hexit (u t : Slot) (ht : t ∈ k.exitSleepers u) : t ∉ k.runQueueTasks := by
    rcases List.mem_append.mp ht with ht | ht
    · exact hsleepers _ t ht
    · split at ht
      · split at ht
        · exact hsleepers _ t ht
        · cases ht
      · cases ht
  intro t ht
  cases e with
  | kill pid sig => cases hkill
  | wakeup q => exact hsleepers q t ht
  | ttyInput tty c =>
      rw [SchedEvent.woken] at ht
      split at ht
      · exact hsleepers _ t ht
      · cases ht
  | exit status =>
      obtain ⟨u, _, ht⟩ := List.mem_flatMap.mp ht
      exact hexit u t ht
  | resume =>
      obtain ⟨u, _, ht⟩ := List.mem_flatMap.mp ht
      split at ht
      · exact hexit u t ht
      · cases ht
  | _ => cases ht

/-- Every task in use is its own parent, as `sched_kernel_exec` and `sched_init`
leave it, or has a parent in use, and is on the list of children of its parent
once and on no other list of children. -/
def ProcessTreeOk (k : Kernel) : Prop :=
  ∃ children : Slot → List Slot,
    (∀ p, Chain (fun t => (k.sched.task t).nextSibling) (k.sched.task p).children (children p)) ∧
    ∀ t, (k.sched.task t).state ≠ .pooled →
      (k.sched.task t).parent = some t ∨
      ∃ p, (k.sched.task t).parent = some p ∧ (k.sched.task p).state ≠ .pooled ∧
        (children p).count t = 1 ∧ ∀ q, q ≠ p → t ∉ children q

theorem Represents.processTreeOk {k : Kernel} {v : Procs} (h : Represents k v) (hv : v.WF)
    (hfam : v.Family) : ProcessTreeOk k := by
  refine ⟨v.kids, h.sched.kids, fun t ht => ?_⟩
  rw [h.sched.state] at ht
  obtain ⟨p, hpar, hself | hmem⟩ := hfam t ht
  · exact .inl (by rw [h.sched.parent, hpar, hself])
  · refine .inr ⟨p, by rw [h.sched.parent, hpar], ?_, ?_, fun q hq hmem' => ?_⟩
    · rw [h.sched.state]
      intro hpool
      simp [hv.tree.pooled p hpool] at hmem
    · exact List.count_eq_one_of_mem (hv.tree.nodup p) hmem
    · have hother := (hv.tree.parent q t hmem').1
      rw [hpar] at hother
      exact hq (Option.some.inj hother).symm

/-- Runs in which no task is reaped while it has children. -/
theorem processTreeOk_of_noOrphans {k : Kernel}
    (hk : schedMachine.Reaches SchedEvent.NoOrphans k) : ProcessTreeOk k := by
  obtain ⟨v, hv, h⟩ := schedMachine_simulation ProcAction.Calm (fun _ _ ha => ha.safe)
    (by
      intro k v v' e a hv h he
      obtain ⟨hwf, hcalm, _⟩ := calm_of_reaches hv
      refine ⟨h.fresh hwf hcalm he.1, fun ha => ⟨ha.1, ?_, ?_⟩⟩
      · rintro t bits rfl
        exact Bool.noConfusion (he.1.symm.trans ha.2.2)
      · rintro p c rfl
        have hchain := ha.2.1.kids c
        rw [he.2 c ha.2.2] at hchain
        exact Chain.none_iff.mp hchain) hk
  obtain ⟨hwf, _, hfam⟩ := calm_of_reaches hv
  exact h.processTreeOk hwf hfam

/-- The shell forks, its child exits, and the shell waits for it. -/
def childReaped : List SchedEvent :=
  [.kernelExec (cstr "/bin/sh") 0 (some (0, 0)), .schedule, .fork, .schedule, .exit 0,
    .waitpid (-1) false 0]

/-- The same, but the child forks before it exits. -/
def grandchildLeft : List SchedEvent :=
  [.kernelExec (cstr "/bin/sh") 0 (some (0, 0)), .schedule, .fork, .schedule, .fork, .exit 0,
    .waitpid (-1) false 0]

/-- A reaped child had no children of its own. -/
theorem processTreeOk_reaped : ∃ k, afterRun SchedEvent.NoOrphans childReaped = some k ∧
    ProcessTreeOk k := by
  obtain ⟨k, hk⟩ := Option.isSome_iff_exists.mp
    (show (afterRun SchedEvent.NoOrphans childReaped).isSome by decide +kernel)
  exact ⟨k, hk, processTreeOk_of_noOrphans (reaches_afterRun hk)⟩

/-- The calls that make and end processes, and the context switches between them. -/
def SchedEvent.processCall : SchedEvent → Bool
  | .kernelExec _ _ _ | .fork | .schedule | .exit _ | .waitpid _ _ _ | .resume => true
  | _ => false

/-- The process left over by the second run names a free slot as its parent. -/
theorem processTree_orphan : ¬ ∀ k,
    schedMachine.Reaches (fun _ e => e.processCall) k → ProcessTreeOk k := by
  intro hall
  have hrun : (afterRun (fun _ e => e.processCall) grandchildLeft).map
      (fun k => ((k.sched.task 3).state, (k.sched.task 3).parent, (k.sched.task 2).state)) =
        some (.queued, some 2, .pooled) := by decide +kernel
  obtain ⟨k, hk, hstate⟩ := Option.map_eq_some_iff.mp hrun
  simp only [Prod.mk.injEq] at hstate
  obtain ⟨hlive, hparent, hpool⟩ := hstate
  obtain ⟨children, _, htree⟩ := hall k (reaches_afterRun hk)
  rcases htree 3 (by simp [hlive]) with hself | ⟨p, hpar, hp, _⟩
  · rw [hparent] at hself
    cases hself
  · rw [hparent] at hpar
    obtain rfl := Option.some.inj hpar
    exact hp hpool

end Punix
