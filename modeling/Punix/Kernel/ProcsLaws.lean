import Punix.Kernel.Procs

/-!
The operations on the lists keep the laws. Each lemma asks for what the caller
of the operation knows about its arguments, and, where a task is put into the
run queue, that it is not there yet.
-/

namespace Punix.Procs

attribute [local grind =] Function.update_apply

variable {v v' : Procs} {t p c : Slot} {q : WaitQueueRef} {call : WaitCall}

theorem WaitOk.notMem (h : v.WaitOk) (ht : ∀ call, v.ctl t ≠ .wait .asleep call)
    (q : WaitQueueRef) : t ∉ v.waitq q := by
  intro hmem
  obtain ⟨call, hctl, _⟩ := h.waiting q t hmem
  exact ht call hctl

/-- No task is on two wait queues. -/
theorem WaitOk.queue_unique (h : v.WaitOk) {q' : WaitQueueRef} (hq : t ∈ v.waitq q)
    (hq' : t ∈ v.waitq q') : q = q' := by
  obtain ⟨call, hctl, rfl⟩ := h.waiting q t hq
  obtain ⟨call', hctl', rfl⟩ := h.waiting q' t hq'
  rw [hctl] at hctl'
  cases hctl'
  rfl

/-- Only the task itself waits for any of its children. -/
theorem WaitOk.eq_of_mem_waitChild (h : v.WaitOk) (ht : t ∈ v.waitq (.waitChild p)) : t = p := by
  obtain ⟨call, _, hq⟩ := h.waiting _ t ht
  cases call with
  | ttyInput tty count => cases hq
  | childExit child status => cases hq
  | anyChild status => exact WaitQueueRef.waitChild.inj hq

/-- Nobody waits on the queues of a task that has ended. -/
theorem Laws.waitChild_eq_nil (h : v.Laws) (ht : v.state t = .zombie ∨ v.state t = .pooled) :
    v.waitq (.waitChild t) = [] := by
  apply List.eq_nil_iff_forall_not_mem.mpr
  intro e he
  obtain rfl := h.wait.eq_of_mem_waitChild he
  exact h.wait.notMem (fun call => h.ended.notWaiting e ht .asleep call) _ he

theorem Laws.notMem_runq (h : v.Laws) (ht : v.state t = .zombie ∨ v.state t = .pooled) :
    t ∉ v.runq := by
  intro hmem
  have hready := h.run.ready t hmem
  rcases ht with ht | ht <;> rw [ht] at hready <;> simp [SchedState.sleeping] at hready

theorem Laws.notMem_free (h : v.Laws) (ht : v.state t ≠ .pooled) : t ∉ v.free :=
  fun hmem => ht (h.slot.pooled t hmem)

theorem RunOk.push (h : v.RunOk) (ht : t ∉ v.runq)
    (hready : v.state t = .queued ∨ (v.state t).sleeping) (hcur : v.current ≠ some t) :
    (v.push t).RunOk where
  nodup := by
    rw [Procs.push, List.nodup_append]
    exact ⟨h.nodup, List.nodup_singleton t, by grind⟩
  ready := by
    intro u hu
    rcases List.mem_append.mp hu with hu | hu
    · exact h.ready u hu
    · exact (List.mem_singleton.mp hu) ▸ hready
  notCurrent := by
    intro u hu
    rcases List.mem_append.mp hu with hu | hu
    · exact h.notCurrent u hu
    · exact (List.mem_singleton.mp hu) ▸ hcur

theorem Laws.push (h : v.Laws) (ht : t ∉ v.runq)
    (hready : v.state t = .queued ∨ (v.state t).sleeping) (hcur : v.current ≠ some t) :
    (v.push t).Laws where
  run := h.run.push ht hready hcur
  wait := ⟨h.wait.nodup, h.wait.waiting, h.wait.childExit⟩
  ended := ⟨h.ended.notWaiting, h.ended.notAwaited⟩
  tree := ⟨h.tree.nodup, h.tree.live, h.tree.parent, h.tree.pooled⟩
  slot := ⟨h.slot.nodup, h.slot.pooled, h.slot.swapper⟩

/-- A wakeup is safe when the sleepers it reaches are not in the run queue. -/
def WakeSafe (v : Procs) (q : WaitQueueRef) : Prop :=
  ∀ t ∈ v.waitq q, (v.state t).sleeping → t ∉ v.runq

theorem RunOk.wake (h : v.RunOk) (hw : v.WaitOk) (hsafe : v.WakeSafe q)
    (hcur : ∀ t, v.current = some t → ¬ (v.state t).sleeping) : (v.wake q).RunOk where
  nodup := by
    rw [Procs.wake, List.nodup_append]
    refine ⟨h.nodup, (hw.nodup q).filter _, ?_⟩
    intro t ht u hu htu
    obtain ⟨hmem, hsleep⟩ := List.mem_filter.mp hu
    exact hsafe u hmem hsleep (htu ▸ ht)
  ready := by
    intro t ht
    rcases List.mem_append.mp ht with ht | ht
    · exact h.ready t ht
    · exact .inr (List.mem_filter.mp ht).2
  notCurrent := by
    intro t ht hc
    rcases List.mem_append.mp ht with ht | ht
    · exact h.notCurrent t ht hc
    · exact hcur t hc (List.mem_filter.mp ht).2

theorem WaitOk.wake (h : v.WaitOk) (q : WaitQueueRef) : (v.wake q).WaitOk where
  nodup := by
    intro q'
    have hold := h.nodup q'
    simp only [Procs.wake]
    grind
  waiting := by
    intro q' t ht
    have hold := h.waiting q' t
    simp only [Procs.wake] at ht ⊢
    grind
  childExit := h.childExit

theorem EndOk.wake (h : v.EndOk) (q : WaitQueueRef) : (v.wake q).EndOk where
  notWaiting := h.notWaiting
  notAwaited := by
    intro t ht
    have hold := h.notAwaited t ht
    simp only [Procs.wake]
    grind

theorem WF.wake (h : v.WF) (hsafe : v.WakeSafe q) : (v.wake q).WF where
  run := by
    apply h.run.wake h.wait hsafe
    intro t ht
    rw [h.current t ht]
    decide
  wait := h.wait.wake q
  ended := h.ended.wake q
  tree := ⟨h.tree.nodup, h.tree.live, h.tree.parent, h.tree.pooled⟩
  slot := ⟨h.slot.nodup, h.slot.pooled, h.slot.swapper⟩
  current := h.current

/-- What one call of `schedule` can do. -/
theorem schedule_cases (h : v.schedule = some v') :
    ∃ next, v.runq.head?.or v.swapper = some next ∧
      ((∃ prev, v.current = some prev ∧ some next = v.swapper ∧ v.state prev = .running ∧
          v' = { v with runq := v.runq.tail }) ∨
        ((∀ prev, v.current = some prev → (v.state prev).sleeping) ∧
          v' = ({ v with runq := v.runq.tail } : Procs).switchTo next) ∨
        ∃ prev, v.current = some prev ∧ ¬ (v.state prev).sleeping ∧
          v' = ((if some prev ≠ v.swapper then
              (({ v with runq := v.runq.tail } : Procs).setState prev .queued).push prev
            else ({ v with runq := v.runq.tail } : Procs).setState prev .queued)).switchTo next) := by
  simp only [schedule, Option.map_eq_some_iff] at h
  obtain ⟨next, hnext, rfl⟩ := h
  refine ⟨next, hnext, ?_⟩
  unfold yieldTo
  cases hcur : v.current with
  | none => exact .inr (.inl ⟨by simp, rfl⟩)
  | some prev =>
      dsimp only
      split
      · next hstay => exact .inl ⟨prev, rfl, hstay.1, hstay.2, rfl⟩
      · split
        · next hsleep => exact .inr (.inl ⟨by simpa using hsleep, rfl⟩)
        · next hwake => exact .inr (.inr ⟨prev, rfl, hwake, rfl⟩)

/-- A context switch changes states, the run queue and the current task only. -/
theorem schedule_frame (hs : v.schedule = some v') :
    v'.kids = v.kids ∧ v'.parent = v.parent ∧ v'.waitq = v.waitq ∧ v'.pending = v.pending ∧
      v'.ctl = v.ctl := by
  obtain ⟨next, _, hcase⟩ := schedule_cases hs
  rcases hcase with ⟨_, _, _, _, rfl⟩ | ⟨_, rfl⟩ | ⟨_, _, _, rfl⟩
  · exact ⟨rfl, rfl, rfl, rfl, rfl⟩
  · exact ⟨rfl, rfl, rfl, rfl, rfl⟩
  · split <;> exact ⟨rfl, rfl, rfl, rfl, rfl⟩

/-- Taking the front task out of the run queue. -/
theorem Laws.tail (h : v.Laws) : ({ v with runq := v.runq.tail } : Procs).Laws where
  run := by
    refine ⟨h.run.nodup.tail, fun t ht => ?_, fun t ht => ?_⟩
    · exact h.run.ready t (List.mem_of_mem_tail ht)
    · exact h.run.notCurrent t (List.mem_of_mem_tail ht)
  wait := ⟨h.wait.nodup, h.wait.waiting, h.wait.childExit⟩
  ended := ⟨h.ended.notWaiting, h.ended.notAwaited⟩
  tree := ⟨h.tree.nodup, h.tree.live, h.tree.parent, h.tree.pooled⟩
  slot := ⟨h.slot.nodup, h.slot.pooled, h.slot.swapper⟩

/-- A live task changes to a state in which it is still live and has not ended. -/
theorem Laws.setState (h : v.Laws) (state : SchedState) (ht : t ∉ v.runq)
    (hold : v.state t ≠ .pooled) (hlive : state ≠ .pooled) (hend : state ≠ .zombie) :
    (v.setState t state).Laws where
  run := by
    refine ⟨h.run.nodup, fun u hu => ?_, h.run.notCurrent⟩
    have hne : u ≠ t := fun heq => ht (heq ▸ hu)
    simpa [Procs.setState, hne] using h.run.ready u hu
  wait := ⟨h.wait.nodup, h.wait.waiting, h.wait.childExit⟩
  ended := by
    have hkeep : ∀ u, Function.update v.state t state u = .zombie ∨
        Function.update v.state t state u = .pooled → v.state u = .zombie ∨ v.state u = .pooled := by
      grind
    exact ⟨fun u hu => h.ended.notWaiting u (hkeep u hu),
      fun u hu => h.ended.notAwaited u (hkeep u hu)⟩
  tree := by
    refine ⟨h.tree.nodup, fun p c hc => ?_, h.tree.parent, fun p hp => ?_⟩
    · have hc' := h.tree.live p c hc
      simp only [Procs.setState]
      grind
    · apply h.tree.pooled p
      simp only [Procs.setState] at hp
      grind
  slot := by
    refine ⟨h.slot.nodup, fun u hu => ?_, fun u hu => ?_⟩
    · have hne : u ≠ t := fun heq => hold (heq ▸ h.slot.pooled u hu)
      simpa [Procs.setState, hne] using h.slot.pooled u hu
    · obtain ⟨hswap, hpar⟩ := h.slot.swapper u hu
      refine ⟨?_, hpar⟩
      simp only [Procs.setState]
      grind

theorem Laws.setCurrent (h : v.Laws) (cur : Option Slot) (hcur : ∀ t ∈ v.runq, cur ≠ some t) :
    ({ v with current := cur } : Procs).Laws where
  run := ⟨h.run.nodup, h.run.ready, hcur⟩
  wait := ⟨h.wait.nodup, h.wait.waiting, h.wait.childExit⟩
  ended := ⟨h.ended.notWaiting, h.ended.notAwaited⟩
  tree := ⟨h.tree.nodup, h.tree.live, h.tree.parent, h.tree.pooled⟩
  slot := ⟨h.slot.nodup, h.slot.pooled, h.slot.swapper⟩

theorem Laws.switchTo (h : v.Laws) (ht : t ∉ v.runq) (hlive : v.state t ≠ .pooled) :
    (v.switchTo t).WF := by
  have hset := h.setState .running ht hlive (by simp) (by simp)
  have hcur : ∀ u ∈ (v.setState t .running).runq, some t ≠ some u := by
    intro u hu heq
    exact ht (Option.some.inj heq ▸ hu)
  refine ⟨hset.setCurrent (some t) hcur, fun u hu => ?_⟩
  obtain rfl : t = u := Option.some.inj hu
  simp [Procs.switchTo, Procs.setState]

/-- A context switch keeps the laws whether the current task runs or sleeps. -/
theorem Laws.schedule (h : v.Laws)
    (hcur : ∀ t, v.current = some t → v.state t = .running ∨ (v.state t).sleeping)
    (hs : v.schedule = some v') : v'.WF := by
  obtain ⟨next, hnext, hcase⟩ := schedule_cases hs
  -- the next task is not pooled, and not behind itself in the run queue
  have hlive : v.state next ≠ .pooled := by
    rcases Option.or_eq_some_iff.mp hnext with hhead | ⟨_, hswap⟩
    · intro hpool
      exact h.notMem_runq (.inr hpool) (List.mem_of_mem_head? hhead)
    · exact (h.slot.swapper next hswap).1
  have hfront : next ∉ v.runq.tail := by
    intro hmem
    rcases Option.or_eq_some_iff.mp hnext with hhead | ⟨hnil, _⟩
    · cases hq : v.runq with
      | nil => simp [hq] at hmem
      | cons t ts =>
          obtain rfl : t = next := by simpa [hq] using hhead
          have hnodup := h.run.nodup
          rw [hq] at hnodup hmem
          exact (List.nodup_cons.mp hnodup).1 hmem
    · rw [List.head?_eq_none_iff.mp hnil] at hmem
      cases hmem
  rcases hcase with ⟨prev, hprev, _, hrun, rfl⟩ | ⟨_, rfl⟩ | ⟨prev, hprev, hwake, rfl⟩
  · refine ⟨h.tail, fun t ht => ?_⟩
    obtain rfl : prev = t := Option.some.inj (hprev.symm.trans ht)
    exact hrun
  · exact h.tail.switchTo hfront hlive
  · have hrun : v.state prev = .running := (hcur prev hprev).resolve_right hwake
    have hout : prev ∉ v.runq.tail := fun hmem =>
      h.run.notCurrent prev (List.mem_of_mem_tail hmem) hprev
    have hset := h.tail.setState .queued hout (by simp [hrun]) (by simp) (by simp)
    split
    · next hother =>
        -- while `prev` joins the queue nobody is current
        have hnone := hset.setCurrent none (by simp)
        have hpush := hnone.push hout (.inl (by simp [Procs.setState])) (by simp)
        have hne : next ≠ prev := by
          rcases Option.or_eq_some_iff.mp hnext with hhead | ⟨_, hswap⟩
          · exact fun heq => h.run.notCurrent next (List.mem_of_mem_head? hhead) (heq ▸ hprev)
          · exact fun heq => hother (heq ▸ hswap.symm)
        apply hpush.switchTo
        · simp [Procs.push, Procs.setState, hfront, hne]
        · simp [Procs.push, Procs.setState, hne, hlive]
    · next hswap =>
        apply hset.switchTo hfront
        simp only [Procs.setState]
        grind

theorem WF.unlink (h : v.WF) (t : Slot) : (v.unlink t).WF where
  run := ⟨h.run.nodup, h.run.ready, h.run.notCurrent⟩
  wait := by
    refine ⟨fun q => (h.wait.nodup q).erase t, fun q u hu => ?_, h.wait.childExit⟩
    exact h.wait.waiting q u (List.mem_of_mem_erase hu)
  ended := by
    refine ⟨h.ended.notWaiting, fun u hu => ?_⟩
    simp [Procs.unlink, h.ended.notAwaited u hu]
  tree := ⟨h.tree.nodup, h.tree.live, h.tree.parent, h.tree.pooled⟩
  slot := ⟨h.slot.nodup, h.slot.pooled, h.slot.swapper⟩
  current := h.current

theorem WF.notMem_unlink (h : v.WF) (t : Slot) (q : WaitQueueRef) : t ∉ (v.unlink t).waitq q :=
  (h.wait.nodup q).not_mem_erase

/-- A task that is on no wait queue may continue elsewhere. -/
theorem WF.setCtl (h : v.WF) (ht : ∀ q, t ∉ v.waitq q) {ctl : Ctl}
    (hctl : ∀ call, ctl ≠ .wait .asleep call)
    (hend : v.state t = .zombie ∨ v.state t = .pooled → ∀ point call, ctl ≠ .wait point call) :
    (v.setCtl t ctl).WF where
  run := ⟨h.run.nodup, h.run.ready, h.run.notCurrent⟩
  wait := by
    refine ⟨h.wait.nodup, fun q u hu => ?_, fun u c status hu => ?_⟩
    · have hne : u ≠ t := fun heq => ht q (heq ▸ hu)
      simpa [Procs.setCtl, hne] using h.wait.waiting q u hu
    · have hold := h.wait.childExit u c status
      simp only [Procs.setCtl] at hu ⊢
      grind
  ended := by
    refine ⟨fun u hu point call => ?_, h.ended.notAwaited⟩
    have hold := h.ended.notWaiting u hu point call
    simp only [Procs.setCtl] at hu ⊢
    grind
  tree := ⟨h.tree.nodup, h.tree.live, h.tree.parent, h.tree.pooled⟩
  slot := ⟨h.slot.nodup, h.slot.pooled, h.slot.swapper⟩
  current := h.current

/-- A running task goes to sleep in a call whose condition does not hold. -/
theorem Laws.fallAsleep (h : v.Laws) (hrun : v.state t = .running) (hout : t ∉ v.runq)
    (ht : ∀ q, t ∉ v.waitq q)
    (hcall : ∀ c status, call = .childExit c status → c ∈ v.kids t ∧ v.state c ≠ .zombie) :
    (v.fallAsleep t call).Laws := by
  have hset := h.setState .interruptible hout (by simp [hrun]) (by simp) (by simp)
  refine ⟨⟨hset.run.nodup, hset.run.ready, hset.run.notCurrent⟩, ?_, ?_,
    ⟨hset.tree.nodup, hset.tree.live, hset.tree.parent, hset.tree.pooled⟩,
    ⟨hset.slot.nodup, hset.slot.pooled, hset.slot.swapper⟩⟩
  · refine ⟨fun q => ?_, fun q u hu => ?_, fun u c status hu => ?_⟩
    · have hold := h.wait.nodup q
      have hnew := ht q
      simp only [Procs.fallAsleep]
      grind
    · have hold := h.wait.waiting q u
      simp only [Procs.fallAsleep, Procs.setCtl, Procs.setState] at hu ⊢
      grind
    · have hold := h.wait.childExit u c status
      have hnew := hcall c status
      simp only [Procs.fallAsleep, Procs.setCtl, Procs.setState] at hu ⊢
      grind
  · refine ⟨fun u hu point c => ?_, fun u hu => ?_⟩
    · have hold := h.ended.notWaiting u
      simp only [Procs.fallAsleep, Procs.setCtl, Procs.setState] at hu ⊢
      grind
    · have hold := hset.ended.notAwaited u hu
      have hne : call.queue t ≠ .waitExit u := by
        intro heq
        cases call with
        | ttyInput tty count => cases heq
        | anyChild status => cases heq
        | childExit c status =>
            obtain rfl : c = u := WaitQueueRef.waitExit.inj heq
            obtain ⟨hkid, hzombie⟩ := hcall c status rfl
            have hlive := h.tree.live t c hkid
            have hself := (h.tree.parent t c hkid).2
            simp only [Procs.fallAsleep, Procs.setCtl, Procs.setState] at hu
            grind
      simpa [Procs.fallAsleep, Procs.setState, Procs.setCtl, hne.symm] using hold

theorem RunOk.setState (h : v.RunOk) (state : SchedState) (ht : t ∉ v.runq) :
    (v.setState t state).RunOk := by
  refine ⟨h.nodup, fun u hu => ?_, h.notCurrent⟩
  have hne : u ≠ t := fun heq => ht (heq ▸ hu)
  simpa [Procs.setState, hne] using h.ready u hu

theorem waitq_die (v : Procs) (t p : Slot) (q : WaitQueueRef) :
    (v.die t p).waitq q =
      if q = .waitExit t ∨ p ≠ t ∧ q = .waitChild p then [] else v.waitq q := by
  unfold die
  split
  · next hp =>
      simp only [Procs.setCtl, Procs.wake, Procs.setState, Function.update_apply]
      grind
  · next hp =>
      simp only [Procs.setCtl, Procs.wake, Procs.setState, Function.update_apply]
      grind

@[simp] theorem state_die (v : Procs) (t p : Slot) :
    (v.die t p).state = Function.update v.state t .zombie := by
  unfold die
  split <;> rfl

@[simp] theorem ctl_die (v : Procs) (t p : Slot) :
    (v.die t p).ctl = Function.update v.ctl t .dead := by
  unfold die
  split <;> rfl

@[simp] theorem kids_die (v : Procs) (t p : Slot) : (v.die t p).kids = v.kids := by
  unfold die
  split <;> rfl

@[simp] theorem parent_die (v : Procs) (t p : Slot) : (v.die t p).parent = v.parent := by
  unfold die
  split <;> rfl

@[simp] theorem free_die (v : Procs) (t p : Slot) : (v.die t p).free = v.free := by
  unfold die
  split <;> rfl

@[simp] theorem swapper_die (v : Procs) (t p : Slot) : (v.die t p).swapper = v.swapper := by
  unfold die
  split <;> rfl

@[simp] theorem pending_die (v : Procs) (t p : Slot) : (v.die t p).pending = v.pending := by
  unfold die
  split <;> rfl

@[simp] theorem current_die (v : Procs) (t p : Slot) : (v.die t p).current = none := by
  unfold die
  split <;> rfl

/-- Ending a task puts no sleeper into the run queue. -/
theorem WakeSafe.zombie (h : v.WakeSafe q) (t : Slot) : (v.setState t .zombie).WakeSafe q := by
  intro u hu hsleep
  apply h u hu
  simp only [Procs.setState, SchedState.sleeping] at hsleep ⊢
  grind

/-- Waking one queue leaves the sleepers of another where they are. -/
theorem WakeSafe.wake (h : v.WakeSafe q) (hw : v.WaitOk) (q' : WaitQueueRef) (hne : q ≠ q') :
    (v.wake q').WakeSafe q := by
  intro u hu hsleep hmem
  have hu' : u ∈ v.waitq q := by simpa [Procs.wake, hne] using hu
  rcases List.mem_append.mp hmem with hmem | hmem
  · exact h u hu' hsleep hmem
  · exact hne (hw.queue_unique hu' (List.mem_filter.mp hmem).1)

theorem WaitOk.setState (h : v.WaitOk) (t : Slot) (state : SchedState) :
    (v.setState t state).WaitOk := ⟨h.nodup, h.waiting, h.childExit⟩

/-- The tasks that an exit wakes are put into the run queue one by one. -/
theorem WF.run_die (h : v.WF) (hcur : v.current = some t)
    (hexit : v.WakeSafe (.waitExit t)) (hchild : p ≠ t → v.WakeSafe (.waitChild p)) :
    (v.die t p).RunOk := by
  have hout : t ∉ v.runq := fun hmem => h.run.notCurrent t hmem hcur
  have hzombie := h.run.setState .zombie hout
  have hwait := h.wait.setState t .zombie
  have hnotSleeping : ∀ u, (v.setState t .zombie).current = some u →
      ¬ ((v.setState t .zombie).state u).sleeping := by
    intro u hu
    obtain rfl : t = u := Option.some.inj (hcur.symm.trans hu)
    simp [Procs.setState, SchedState.sleeping]
  have hfirst := hzombie.wake hwait (hexit.zombie t) hnotSleeping
  unfold die
  split
  · next hp =>
      have hsecond := ((hchild hp).zombie t).wake hwait (.waitExit t) (by simp)
      have hboth := hfirst.wake (hwait.wake _) hsecond hnotSleeping
      exact ⟨hboth.nodup, hboth.ready, by simp [Procs.setCtl]⟩
  · exact ⟨hfirst.nodup, hfirst.ready, by simp [Procs.setCtl]⟩

/-- The current task exits. What it wakes is not in the run queue yet. -/
theorem WF.die (h : v.WF) (hcur : v.current = some t) (ht : ∀ q, t ∉ v.waitq q)
    (hexit : v.WakeSafe (.waitExit t)) (hchild : p ≠ t → v.WakeSafe (.waitChild p)) :
    (v.die t p).Laws := by
  have hrun := h.current t hcur
  have hlive : ∀ u, Function.update v.state t .zombie u = .pooled ↔ v.state u = .pooled := by
    grind
  refine ⟨h.run_die hcur hexit hchild, ?_, ?_, ?_, ?_⟩
  · refine ⟨fun q => ?_, fun q u hu => ?_, fun u c status hu => ?_⟩
    · rw [waitq_die]
      split
      · exact List.nodup_nil
      · exact h.wait.nodup q
    · rw [waitq_die] at hu
      split at hu
      · cases hu
      · have hne : u ≠ t := fun heq => ht q (heq ▸ hu)
        simpa [hne] using h.wait.waiting q u hu
    · have hold := h.wait.childExit u c status
      rw [ctl_die] at hu
      rw [kids_die]
      grind
  · refine ⟨fun u hu point c => ?_, fun u hu => ?_⟩
    · have hold := h.ended.notWaiting u
      rw [state_die] at hu
      rw [ctl_die]
      grind
    · have hold := h.ended.notAwaited u
      rw [state_die] at hu
      rw [waitq_die]
      grind
  · refine ⟨by simpa using h.tree.nodup, fun q c hc => ?_, by simpa using h.tree.parent,
      fun q hq => ?_⟩
    · rw [kids_die] at hc
      rw [state_die, ne_eq, hlive]
      exact h.tree.live q c hc
    · rw [state_die, hlive] at hq
      rw [kids_die]
      exact h.tree.pooled q hq
  · refine ⟨by simpa using h.slot.nodup, fun u hu => ?_, fun u hu => ?_⟩
    · rw [free_die] at hu
      rw [state_die, hlive]
      exact h.slot.pooled u hu
    · rw [swapper_die] at hu
      rw [state_die, ne_eq, hlive, parent_die]
      exact h.slot.swapper u hu

/-- A free slot is on none of the other lists. -/
theorem Laws.of_mem_free (h : v.Laws) (ht : t ∈ v.free) :
    v.state t = .pooled ∧ t ∉ v.runq ∧ (∀ q, t ∉ v.waitq q) ∧ (∀ p, t ∉ v.kids p) ∧
      v.kids t = [] ∧ v.swapper ≠ some t := by
  have hpool := h.slot.pooled t ht
  refine ⟨hpool, h.notMem_runq (.inr hpool), ?_, fun p hmem => h.tree.live p t hmem hpool,
    h.tree.pooled t hpool, fun hswap => (h.slot.swapper t hswap).1 hpool⟩
  exact h.wait.notMem fun call => h.ended.notWaiting t (.inr hpool) .asleep call

theorem Laws.take {rest : List Slot} (h : v.Laws) (hfree : v.free = t :: rest) (p : Slot) :
    (v.take t p).Laws := by
  obtain ⟨hpool, hrunq, hwaitq, hkids, hnone, hswap⟩ := h.of_mem_free (t := t) (by simp [hfree])
  obtain ⟨hrest, hnodup⟩ := List.nodup_cons.mp (hfree ▸ h.slot.nodup)
  refine ⟨?_, ?_, ?_, ?_, ?_⟩
  · exact ⟨h.run.nodup, (h.run.setState .queued hrunq).ready, h.run.notCurrent⟩
  · refine ⟨h.wait.nodup, fun q u hu => ?_, fun u c status hu => ?_⟩
    · have hne : u ≠ t := fun heq => hwaitq q (heq ▸ hu)
      simpa [Procs.take, Procs.setCtl, Procs.setState, hne] using h.wait.waiting q u hu
    · have hold := h.wait.childExit u c status
      simp only [Procs.take, Procs.setCtl, Procs.setState] at hu ⊢
      grind
  · refine ⟨fun u hu point c => ?_, fun u hu => ?_⟩
    · have hold := h.ended.notWaiting u
      simp only [Procs.take, Procs.setCtl, Procs.setState] at hu ⊢
      grind
    · have hold := h.ended.notAwaited u
      simp only [Procs.take, Procs.setCtl, Procs.setState] at hu ⊢
      grind
  · refine ⟨h.tree.nodup, fun q c hc => ?_, fun q c hc => ?_, fun q hq => ?_⟩
    · have hold := h.tree.live q c
      simp only [Procs.take, Procs.setCtl, Procs.setState] at hc ⊢
      grind
    · have hold := h.tree.parent q c
      have hnew := hkids q
      simp only [Procs.take, Procs.setCtl, Procs.setState] at hc ⊢
      grind
    · have hold := h.tree.pooled q
      simp only [Procs.take, Procs.setCtl, Procs.setState] at hq ⊢
      grind
  · have htail : (v.take t p).free = rest := by simp [Procs.take, hfree]
    refine ⟨htail ▸ hnodup, fun u hu => ?_, fun u hu => ?_⟩
    · rw [htail] at hu
      have hne : u ≠ t := fun heq => hrest (heq ▸ hu)
      have hold := h.slot.pooled u (by simp [hfree, hu])
      simpa [Procs.take, Procs.setCtl, Procs.setState, hne] using hold
    · have hne : u ≠ t := fun heq => hswap (heq ▸ hu)
      simpa [Procs.take, Procs.setCtl, Procs.setState, hne] using h.slot.swapper u hu

theorem Laws.adopt (h : v.Laws) (ht : ∀ q, t ∉ v.kids q) (hlive : v.state t ≠ .pooled)
    (hpar : v.parent t = some p) (hne : t ≠ p) (hp : v.state p ≠ .pooled) :
    (v.adopt p t).Laws := by
  refine ⟨⟨h.run.nodup, h.run.ready, h.run.notCurrent⟩, ⟨h.wait.nodup, h.wait.waiting, ?_⟩,
    ⟨h.ended.notWaiting, h.ended.notAwaited⟩, ?_, ⟨h.slot.nodup, h.slot.pooled, h.slot.swapper⟩⟩
  · intro u c status hu
    have hold := h.wait.childExit u c status hu
    simp only [Procs.adopt]
    grind
  · refine ⟨fun q => ?_, fun q c hc => ?_, fun q c hc => ?_, fun q hq => ?_⟩
    · have hold := h.tree.nodup q
      have hnew := ht p
      simp only [Procs.adopt]
      grind
    · have hold := h.tree.live q c
      simp only [Procs.adopt] at hc ⊢
      grind
    · have hold := h.tree.parent q c
      simp only [Procs.adopt] at hc ⊢
      grind
    · have hold := h.tree.pooled q hq
      simp only [Procs.adopt] at hq ⊢
      grind

/-- A task that is on no list goes back to the free slots. -/
theorem Laws.release (h : v.Laws) (hlive : v.state t ≠ .pooled) (hrunq : t ∉ v.runq)
    (hctl : ∀ point call, v.ctl t ≠ .wait point call) (hexit : v.waitq (.waitExit t) = [])
    (hkids : ∀ p, t ∉ v.kids p) (hswap : v.swapper ≠ some t) : (v.release t).Laws := by
  have hfree := h.notMem_free hlive
  refine ⟨?_, ?_, ?_, ?_, ?_⟩
  · have hset := h.run.setState .pooled hrunq
    exact ⟨hset.nodup, hset.ready, h.run.notCurrent⟩
  · refine ⟨h.wait.nodup, h.wait.waiting, fun u c status hu => ?_⟩
    have hold := h.wait.childExit u c status hu
    have hne : u ≠ t := by
      rintro rfl
      exact hctl _ _ hu
    simpa [Procs.release, hne] using hold
  · refine ⟨fun u hu point c => ?_, fun u hu => ?_⟩
    · have hold := h.ended.notWaiting u
      simp only [Procs.release, Procs.setState] at hu ⊢
      grind
    · have hold := h.ended.notAwaited u
      simp only [Procs.release, Procs.setState] at hu ⊢
      grind
  · refine ⟨fun q => ?_, fun q c hc => ?_, fun q c hc => ?_, fun q hq => ?_⟩
    · have hold := h.tree.nodup q
      simp only [Procs.release]
      grind
    · have hold := h.tree.live q c
      have hnew := hkids q
      simp only [Procs.release, Procs.setState] at hc ⊢
      grind
    · have hold := h.tree.parent q c
      have hnew := hkids q
      simp only [Procs.release] at hc ⊢
      grind
    · have hold := h.tree.pooled q
      simp only [Procs.release, Procs.setState] at hq ⊢
      grind
  · refine ⟨?_, fun u hu => ?_, fun u hu => ?_⟩
    · rw [Procs.release, List.nodup_append]
      exact ⟨h.slot.nodup, List.nodup_singleton t, by grind⟩
    · have hold := h.slot.pooled u
      simp only [Procs.release, Procs.setState] at hu ⊢
      grind
    · have hne : u ≠ t := fun heq => hswap (heq ▸ hu)
      simpa [Procs.release, Procs.setState, hne] using h.slot.swapper u hu

/-- A zombie is reaped by the task whose child it is. -/
theorem Laws.reap (h : v.Laws) (hkid : c ∈ v.kids p) (hzombie : v.state c = .zombie)
    (hctl : ∀ call, v.ctl p ≠ .wait .asleep call) : (v.reap p c).Laws := by
  obtain ⟨hpar, hne⟩ := h.tree.parent p c hkid
  have hmem : ∀ q u, u ∈ Function.update v.kids p ((v.kids p).erase c) q → u ∈ v.kids q := by
    intro q u hu
    have hsub := List.mem_of_mem_erase (a := u) (b := c) (l := v.kids p)
    grind
  have herased : ({ v with kids := Function.update v.kids p ((v.kids p).erase c) } : Procs).Laws := by
    refine ⟨⟨h.run.nodup, h.run.ready, h.run.notCurrent⟩, ⟨h.wait.nodup, h.wait.waiting, ?_⟩,
      ⟨h.ended.notWaiting, h.ended.notAwaited⟩, ?_, ⟨h.slot.nodup, h.slot.pooled, h.slot.swapper⟩⟩
    · intro u d status hu
      have hold := h.wait.childExit u d status hu
      have hup : u ≠ p := by
        rintro rfl
        exact hctl _ hu
      simpa [hup] using hold
    · refine ⟨fun q => ?_, fun q d hd => h.tree.live q d (hmem q d hd),
        fun q d hd => h.tree.parent q d (hmem q d hd), fun q hq => ?_⟩
      · have hold := h.tree.nodup q
        have herase := (h.tree.nodup p).erase c
        simp only
        grind
      · have hold := h.tree.pooled q hq
        simp only
        grind
  apply herased.release
  · simp [hzombie]
  · exact h.notMem_runq (.inl hzombie)
  · exact h.ended.notWaiting c (.inl hzombie)
  · exact h.ended.notAwaited c (.inl hzombie)
  · intro q hq
    by_cases hqp : q = p
    · subst hqp
      have hnot := (h.tree.nodup q).not_mem_erase (a := c)
      simp only [Function.update_self] at hq
      exact hnot hq
    · have hc := (h.tree.parent q c (hmem q c hq)).1
      rw [hpar] at hc
      exact hqp (Option.some.inj hc).symm
  · intro hswap
    have hself := (h.slot.swapper c hswap).2
    rw [hpar] at hself
    exact hne (Option.some.inj hself).symm

theorem WF.kill (h : v.WF) (bits : BitVec 32)
    (hsafe : v.state t = .interruptible → t ∉ v.runq) : (v.kill t bits).WF := by
  have hlaws : ({ v with
      pending := Function.update v.pending t (v.pending t ||| bits) } : Procs).Laws :=
    ⟨⟨h.run.nodup, h.run.ready, h.run.notCurrent⟩,
      ⟨h.wait.nodup, h.wait.waiting, h.wait.childExit⟩, ⟨h.ended.notWaiting, h.ended.notAwaited⟩,
      ⟨h.tree.nodup, h.tree.live, h.tree.parent, h.tree.pooled⟩,
      ⟨h.slot.nodup, h.slot.pooled, h.slot.swapper⟩⟩
  by_cases hint : v.state t = .interruptible
  · simp only [Procs.kill, hint, if_true]
    refine ⟨hlaws.push (hsafe hint) (.inr (by simp [hint, SchedState.sleeping])) ?_, h.current⟩
    intro hcur
    have hrun := h.current t hcur
    rw [hint] at hrun
    cases hrun
  · simp only [Procs.kill, hint, if_false]
    exact ⟨hlaws, h.current⟩

end Punix.Procs
