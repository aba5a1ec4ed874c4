import Punix.Kernel.ProcsRefine

/-!
The calls of the scheduler on the lists of `Procs`: each of them, run on a
kernel that represents well-formed lists, ends in a kernel that represents the
lists its counterpart ends in.
-/

namespace Punix

open Lib

variable {k k' : Kernel} {v v' : Procs} {t p c : Slot} {q : WaitQueueRef}

/-- A step inside the scheduler. -/
theorem Represents.withSched {s : Scheduler} (h : Represents k v) (hs : SchedRep s v')
    (hctl : v'.ctl = v.ctl) (hwaitq : v'.waitq = v.waitq) :
    Represents { k with sched := s } v' where
  sched := hs
  ctl t := by
    rw [hctl]
    exact h.ctl t
  linked := by
    rw [hwaitq]
    exact h.linked
  entry := by
    rw [hctl]
    exact h.entry

/-- A step outside the scheduler, the wait queues and the kernel stacks. -/
theorem Represents.congr (h : Represents k v) (hsched : k'.sched = k.sched)
    (hwaits : k'.waits = k.waits) (hctl : k'.ctl = k.ctl) : Represents k' v where
  sched := hsched ▸ h.sched
  ctl := hctl ▸ h.ctl
  linked := hwaits ▸ h.linked
  entry := hwaits ▸ h.entry

/-- A task may continue in a call of `wait_event` once its entry is its own. -/
theorem Represents.setCtl (h : Represents k v) (t : Slot) (ctl : Ctl)
    (hentry : ∀ point call, ctl = .wait point call → k.waits.task t = some t) :
    Represents (k.setCtl t ctl) (v.setCtl t ctl) where
  sched := ⟨⟨h.sched.current, h.sched.swapper, h.sched.state, h.sched.parent, h.sched.pending,
    h.sched.free, h.sched.kids⟩, ⟨h.sched.runq.chain, h.sched.runq.len, h.sched.runq.last⟩⟩
  ctl u := by simp [Kernel.setCtl, Procs.setCtl, Function.update_apply, h.ctl]
  linked := h.linked
  entry u point call hu := by
    rcases eq_or_ne u t with rfl | hne
    · exact hentry point call (by simpa [Procs.setCtl] using hu)
    · exact h.entry u point call (by simpa [Procs.setCtl, hne] using hu)

/-- The descriptors of a task are closed without a look at the scheduler. -/
theorem vfsClose_frame {fd : Int} {r : Int} (h : vfsClose k t fd = some (k', r)) :
    k'.sched = k.sched ∧ k'.waits = k.waits ∧ k'.ctl = k.ctl ∧ k'.ttys = k.ttys := by
  unfold vfsClose at h
  split at h
  · simp only [Option.some.injEq, Prod.mk.injEq] at h
    obtain ⟨rfl, _⟩ := h
    exact ⟨rfl, rfl, rfl, rfl⟩
  · obtain ⟨vfs, _, h⟩ := Option.map_eq_some_iff.mp h
    simp only [Prod.mk.injEq] at h
    obtain ⟨rfl, _⟩ := h
    unfold callClose
    split <;> exact ⟨rfl, rfl, rfl, rfl⟩

theorem closeAllFiles_frame (h : closeAllFiles k t = some k') :
    k'.sched = k.sched ∧ k'.waits = k.waits ∧ k'.ctl = k.ctl ∧ k'.ttys = k.ttys := by
  unfold closeAllFiles at h
  generalize List.finRange rlimitNofile = fds at h
  induction fds generalizing k with
  | nil =>
      obtain rfl : k = k' := Option.some.inj h
      exact ⟨rfl, rfl, rfl, rfl⟩
  | cons fd fds ih =>
      rw [List.foldlM_cons] at h
      obtain ⟨k₁, hclose, hrest⟩ := Option.bind_eq_some_iff.mp h
      obtain ⟨hsched, hwaits, hctl, httys⟩ := ih hrest
      have hfirst : k₁.sched = k.sched ∧ k₁.waits = k.waits ∧ k₁.ctl = k.ctl ∧
          k₁.ttys = k.ttys := by
        split at hclose
        · obtain ⟨⟨k₂, r⟩, hcall, rfl⟩ := Option.map_eq_some_iff.mp hclose
          exact vfsClose_frame hcall
        · obtain rfl : k = k₁ := Option.some.inj hclose
          exact ⟨rfl, rfl, rfl, rfl⟩
      exact ⟨hsched.trans hfirst.1, hwaits.trans hfirst.2.1, hctl.trans hfirst.2.2.1,
        httys.trans hfirst.2.2.2⟩

/-- The sleepers among `tasks` are put into the run queue, in order. -/
theorem SchedRep.wakeAll {s : Scheduler} {tasks : List Slot} (h : SchedRep s v)
    (hnodup : tasks.Nodup) (hsafe : ∀ t ∈ tasks, (v.state t).sleeping → t ∉ v.runq) :
    ∃ s', WaitHeap.wakeAll (fun s t => (Scheduler.task s t).sleeping) schedEnqueue
        (tasks.map some) s = some s' ∧
      SchedRep s' { v with runq := v.runq ++ tasks.filter fun t => (v.state t).sleeping } := by
  induction tasks generalizing s v with
  | nil => exact ⟨s, rfl, by simpa using h⟩
  | cons t tasks ih =>
      obtain ⟨hout, hnodup⟩ := List.nodup_cons.mp hnodup
      have hrest : ∀ u ∈ tasks, (v.state u).sleeping → u ∉ v.runq :=
        fun u hu => hsafe u (by simp [hu])
      simp only [WaitHeap.wakeAll, List.map_cons, List.foldlM_cons, wakeEntry, h.sleeping]
      cases hsleep : (v.state t).sleeping with
      | false =>
          obtain ⟨s', hwake, hrep⟩ := ih h hnodup hrest
          exact ⟨s', hwake, by simpa [hsleep] using hrep⟩
      | true =>
          obtain ⟨s₁, hpush, h₁⟩ := h.push (hsafe t (by simp) hsleep)
          have hsafe₁ : ∀ u ∈ tasks, ((v.push t).state u).sleeping → u ∉ (v.push t).runq := by
            intro u hu hsleeping hmem
            rcases List.mem_append.mp hmem with hmem | hmem
            · exact hrest u hu hsleeping hmem
            · exact hout (List.mem_singleton.mp hmem ▸ hu)
          obtain ⟨s', hwake, hrep⟩ := ih h₁ hnodup hsafe₁
          refine ⟨s', ?_, ?_⟩
          · simp only [schedEnqueue, if_true, hpush]
            exact hwake
          · simpa [Procs.push, hsleep] using hrep

theorem Represents.wakeup (h : Represents k v) (hv : v.WaitOk) (hsafe : v.WakeSafe q)
    (hk : k.wakeup q = some k') : Represents k' (v.wake q) := by
  have hnodup := h.linked.nodup q
  have hlen : (v.waitq q).length ≤ maxProcessCnt := by
    simpa [Slot] using hnodup.length_le_card
  have htasks : (v.waitq q).map k.waits.task = (v.waitq q).map some := by
    apply List.map_congr_left
    intro t ht
    obtain ⟨call, hctl, _⟩ := hv.waiting q t ht
    exact h.entry t .asleep call hctl
  obtain ⟨s', hwake, hrep⟩ := h.sched.wakeAll hnodup hsafe
  rw [Kernel.wakeup, h.linked.wakeup_eq _ _ _ hlen, htasks, hwake] at hk
  simp only [Option.map_some, Option.some.injEq] at hk
  subst hk
  refine ⟨⟨⟨hrep.current, hrep.swapper, hrep.state, hrep.parent, hrep.pending, hrep.free,
    hrep.kids⟩, ⟨hrep.runq.chain, hrep.runq.len, hrep.runq.last⟩⟩, h.ctl, h.linked.detach q, ?_⟩
  intro t point call ht
  simpa using h.entry t point call ht

theorem Represents.schedule (h : Represents k v) (hout : ∀ t, v.current = some t → t ∉ v.runq)
    (hk : k.schedule = some k') : ∃ v', v.schedule = some v' ∧ Represents k' v' := by
  obtain ⟨s', hs, rfl⟩ := Option.map_eq_some_iff.mp hk
  obtain ⟨v', hv, hrep⟩ := h.sched.schedule hout hs
  obtain ⟨_, _, hwaitq, _, hctl⟩ := Procs.schedule_frame hv
  exact ⟨v', hv, h.withSched hrep hctl hwaitq⟩

/-- The current task exits: it dies, and another one gets the processor. -/
theorem Represents.exit {status : BitVec 32} (h : Represents k v) (hv : v.WF)
    (hcur : v.current = some t) (hexit : v.WakeSafe (.waitExit t))
    (hchild : ∀ p, v.parent t = some p → p ≠ t → v.WakeSafe (.waitChild p))
    (hk : schedExit k status = some k') :
    ∃ p v', v.parent t = some p ∧ (v.die t p).schedule = some v' ∧ Represents k' v' := by
  unfold schedExit at hk
  rw [h.sched.current, hcur, Option.bind_eq_bind, Option.bind_some] at hk
  obtain ⟨k₁, hclose, hk⟩ := Option.bind_eq_some_iff.mp hk
  obtain ⟨hsched, hwaits, hctl, _⟩ := closeAllFiles_frame hclose
  have h₁ := h.congr hsched hwaits hctl
  have h₂ := h₁.withSched (h₁.sched.setState t
    (f := fun task => { task with exitStatus := status, state := .zombie })
    rfl rfl rfl rfl rfl rfl) rfl rfl
  obtain ⟨k₃, hwake, hk⟩ := Option.bind_eq_some_iff.mp hk
  have h₃ := h₂.wakeup (hv.wait.setState t .zombie) (hexit.zombie t) hwake
  obtain ⟨p, hpar, hk⟩ := Option.bind_eq_some_iff.mp hk
  rw [h₃.sched.parent] at hpar
  refine ⟨p, ?_⟩
  have hlast {k₄ : Kernel} {v₄ : Procs} (h₄ : Represents k₄ v₄)
      (hs : (({ k₄ with sched := { k₄.sched with current := none } } : Kernel).setCtl t
        .dead).schedule = some k') :
      ∃ v', (({ v₄ with current := none } : Procs).setCtl t .dead).schedule = some v' ∧
        Represents k' v' := by
    have h₅ := (h₄.withSched (h₄.sched.setCurrent none) rfl rfl).setCtl t .dead (by simp)
    exact h₅.schedule (by simp [Procs.setCtl]) hs
  unfold Procs.die
  dsimp only at hk ⊢
  split at hk
  · next hne =>
      rw [if_pos hne]
      obtain ⟨k₄, hwake', hk⟩ := Option.bind_eq_some_iff.mp hk
      have hsecond := ((hchild p hpar hne).zombie t).wake (hv.wait.setState t .zombie)
        (.waitExit t) (by simp)
      obtain ⟨v', hs, hrep⟩ := hlast (h₃.wakeup ((hv.wait.setState t .zombie).wake _) hsecond hwake') hk
      exact ⟨v', hpar, hs, hrep⟩
  · next heq =>
      rw [if_neg heq]
      obtain ⟨v', hs, hrep⟩ := hlast h₃ hk
      exact ⟨v', hpar, hs, hrep⟩

/-- The wait queues of a task that nobody waits on may be emptied again. -/
theorem Represents.signalInit (h : Represents k v) (hexit : v.waitq (.waitExit t) = [])
    (hchild : v.waitq (.waitChild t) = []) :
    Represents (signalInit k t) { v with pending := Function.update v.pending t 0 } := by
  have hmod := h.sched.modifyTask t (f := fun task => { task with pending := 0 }) rfl rfl (.inl rfl)
  rw [h.sched.state, h.sched.parent] at hmod
  simp only [Function.update_eq_self] at hmod
  exact ⟨hmod, h.ctl, (h.linked.queueInit hexit).queueInit hchild, h.entry⟩

/-- What `sched_fork` and `task_kernel_exec` have in common: a free slot gets a
parent and is queued. -/
theorem SchedRep.claim {s : Scheduler} {f : Task → Task}
    (h : SchedRep s { v with free := v.free.tail }) (hkids : ∀ p, t ∉ v.kids p)
    (hnext : ∀ task, (f task).next = task.next)
    (hchildren : (f (s.task t)).children = (s.task t).children)
    (hstate : ∀ task, (f task).state = .queued) (hparent : ∀ task, (f task).parent = some p)
    (hpending : ∀ task, (f task).pending = task.pending) :
    SchedRep (s.modifyTask t f) { v with
      free := v.free.tail
      state := Function.update v.state t .queued
      parent := Function.update v.parent t (some p) } := by
  have hmod := h.modifyTask t (f := f) (hnext _) hchildren (.inr hkids)
  rw [hstate, hparent, hpending, h.pending] at hmod
  simp only [Function.update_eq_self] at hmod
  exact hmod

theorem Represents.taskKernelExec {filename : List UInt8} {tty : Int}
    {load : Option (BitVec 32 × BitVec 32)} {r : Option Slot} (h : Represents k v) (hv : v.WF)
    (hk : taskKernelExec k filename tty load = some (k', r)) :
    r = none ∧ Represents k' v ∨ ∃ t, v.free.head? = some t ∧
      (r = some t ∧ Represents k' (v.take t t) ∨
        r = none ∧ Represents k' ((v.take t t).release t)) := by
  unfold Punix.taskKernelExec at hk
  have hnone (hk : some (k, none) = some (k', r)) : r = none ∧ Represents k' v := by
    obtain ⟨rfl, rfl⟩ := Prod.mk.inj (Option.some.inj hk)
    exact ⟨rfl, h⟩
  split at hk
  · exact .inl (hnone hk)
  split at hk
  · exact .inl (hnone hk)
  split at hk
  · exact .inl (hnone hk)
  next sched t halloc =>
    obtain ⟨hhead, halloc⟩ := h.sched.alloc halloc
    have hmem : t ∈ v.free := List.mem_of_mem_head? hhead
    obtain ⟨hpool, _, _, hkids, hnokids, _⟩ := hv.of_mem_free hmem
    refine .inr ⟨t, hhead, ?_⟩
    have hchildren : (sched.task t).children = none :=
      Chain.nil_iff.mp (hnokids ▸ halloc.kids t)
    have hclaim := halloc.claim (f := kernelExecTask { k with sched } t filename tty) (p := t) hkids
      (fun _ => rfl) hchildren.symm (fun _ => rfl) (fun _ => rfl) (fun _ => rfl)
    have htake : Represents _ (v.take t t) :=
      ((h.withSched hclaim rfl rfl).signalInit (hv.ended.notAwaited t (.inr hpool))
        (hv.waitChild_eq_nil (.inr hpool))).setCtl t .user (by simp)
    split at hk
    · right
      obtain ⟨sched', hfree, hk⟩ := Option.map_eq_some_iff.mp hk
      obtain ⟨rfl, rfl⟩ := Prod.mk.inj hk
      have hroom : (v.take t t).free.length < maxProcessCnt := by
        have hlen : v.free.length ≤ maxProcessCnt := by
          simpa [Slot] using hv.slot.nodup.length_le_card
        have hpos := List.length_pos_of_mem hmem
        simp [Procs.take, Procs.setCtl, Procs.setState]
        omega
      exact ⟨rfl, htake.withSched (htake.sched.release hroom hkids hfree) rfl rfl⟩
    · next brk brkLimit =>
        left
        obtain ⟨rfl, rfl⟩ := Prod.mk.inj (Option.some.inj hk)
        exact ⟨rfl, htake.withSched (htake.sched.modifyTask_same t
          (f := fun task => { task with brk, brkLimit }) rfl rfl rfl rfl rfl rfl) rfl rfl⟩

theorem Represents.kernelExec {filename : List UInt8} {tty : Int}
    {load : Option (BitVec 32 × BitVec 32)} {r : Int} (h : Represents k v) (hv : v.WF)
    (hk : schedKernelExec k filename tty load = some (k', r)) :
    Represents k' v ∨ ∃ t, v.free.head? = some t ∧
      (Represents k' ((v.take t t).push t) ∨ Represents k' ((v.take t t).release t)) := by
  unfold schedKernelExec at hk
  obtain ⟨⟨k₁, r₁⟩, hexec, hk⟩ := Option.bind_eq_some_iff.mp hk
  have hnone (hr : r₁ = none) : k₁ = k' := by
    subst hr
    exact (Prod.mk.inj (Option.some.inj hk)).1
  rcases h.taskKernelExec hv hexec with ⟨hr, h₁⟩ | ⟨t, hhead, ⟨rfl, h₁⟩ | ⟨hr, h₁⟩⟩
  · exact .inl (hnone hr ▸ h₁)
  · right
    obtain ⟨_, hrunq, -⟩ := hv.of_mem_free (List.mem_of_mem_head? hhead)
    obtain ⟨s', hpush, hrep⟩ := h₁.sched.push hrunq
    dsimp only at hk
    rw [schedEnqueue, hpush] at hk
    obtain ⟨rfl, _⟩ := Prod.mk.inj (Option.some.inj hk)
    exact ⟨t, hhead, .inl (h₁.withSched hrep rfl rfl)⟩
  · exact .inr ⟨t, hhead, .inr (hnone hr ▸ h₁)⟩

theorem Represents.fork {r : Int} (h : Represents k v) (hv : v.WF) (hcur : v.current = some p)
    (hk : schedFork k = some (k', r)) :
    Represents k' v ∨ ∃ t, v.free.head? = some t ∧
      Represents k' (((v.take t p).adopt p t).push t) := by
  unfold schedFork at hk
  rw [h.sched.current, hcur] at hk
  dsimp only at hk
  split at hk
  · obtain ⟨rfl, _⟩ := Prod.mk.inj (Option.some.inj hk)
    exact .inl h
  next sched t halloc =>
    obtain ⟨hhead, halloc⟩ := h.sched.alloc halloc
    obtain ⟨hpool, hrunq, _, hkids, _⟩ := hv.of_mem_free (List.mem_of_mem_head? hhead)
    have hne : p ≠ t := by
      rintro rfl
      have hrun := hv.current p hcur
      rw [hpool] at hrun
      cases hrun
    have hclaim := halloc.claim (f := forkTask p (sched.task p)) (p := p) hkids
      (fun _ => rfl) rfl (fun _ => rfl) (fun _ => rfl) (fun _ => rfl)
    have hadopt := hclaim.adopt (t := t) (p := p) (by simp [forkTask, hne])
    have htake : Represents _ ((v.take t p).adopt p t) :=
      ((h.withSched hadopt rfl rfl).signalInit (hv.ended.notAwaited t (.inr hpool))
        (hv.waitChild_eq_nil (.inr hpool))).setCtl t .user (by simp)
    obtain ⟨s', hpush, hrep⟩ := htake.sched.push hrunq
    obtain ⟨s₁, hpush', hk⟩ := Option.bind_eq_some_iff.mp hk
    obtain rfl : s' = s₁ := Option.some.inj (hpush.symm.trans hpush')
    obtain ⟨rfl, _⟩ := Prod.mk.inj (Option.some.inj hk)
    exact .inr ⟨t, hhead, htake.withSched hrep rfl rfl⟩

theorem Represents.kill {pid sig r : Int} (h : Represents k v)
    (hsafe : ∀ t, 0 < sig → sig ≤ maxSignals → taskTableFindTaskByPid k.sched pid = some t →
      v.state t = .interruptible → t ∉ v.runq)
    (hk : schedKill k pid sig = some (k', r)) :
    Represents k' v ∨ ∃ t bits, (v.state t = .interruptible → t ∉ v.runq) ∧
      Represents k' (v.kill t bits) := by
  unfold schedKill at hk
  have hsame (hk : some (k, (-1 : Int)) = some (k', r)) : Represents k' v :=
    (Prod.mk.inj (Option.some.inj hk)).1 ▸ h
  split at hk
  · exact .inl (hsame hk)
  next hsig =>
    split at hk
    · exact .inl (hsame hk)
    next t hfind =>
      right
      have hout := hsafe t (by omega) (by omega) hfind
      refine ⟨t, 1#32 <<< (sig - 1).toNat, hout, ?_⟩
      have hmod := h.sched.modifyTask t (f := fun task =>
        { task with pending := task.pending ||| 1#32 <<< (sig - 1).toNat }) rfl rfl (.inl rfl)
      rw [h.sched.state, h.sched.parent, h.sched.pending] at hmod
      simp only [Function.update_eq_self] at hmod
      have hstate := hmod.state t
      unfold Procs.kill
      dsimp only [Kernel.modifyTask] at hk hstate ⊢
      rw [hstate] at hk
      split at hk
      · next hint =>
          rw [if_pos hint]
          obtain ⟨s', hpush, hrep⟩ := hmod.push (hout hint)
          rw [schedEnqueue, hpush] at hk
          obtain ⟨rfl, _⟩ := Prod.mk.inj (Option.some.inj hk)
          exact h.withSched hrep rfl rfl
      · next hint =>
          rw [if_neg hint]
          obtain ⟨rfl, _⟩ := Prod.mk.inj (Option.some.inj hk)
          exact h.withSched hmod rfl rfl

/-- A zombie child is unlinked, and its slot is given back. -/
theorem Represents.reap {status : Bool} {r : CallResult} (h : Represents k v) (hv : v.TreeOk)
    (hslot : v.SlotOk) (hkid : c ∈ v.kids p) (hlive : v.state c ≠ .pooled)
    (hk : Punix.reap k p c status = some (k', r)) : Represents k' (v.reap p c) := by
  unfold Punix.reap at hk
  have hother : ∀ q, q ≠ p → ∀ u ∈ v.kids p, u ∉ v.kids q := by
    intro q hq u hu hu'
    have hpar := (hv.parent p u hu).1
    rw [(hv.parent q u hu').1] at hpar
    exact hq (Option.some.inj hpar)
  obtain ⟨s₁, hunlink, h₁⟩ := h.sched.unlinkChild hkid hother
  simp only [hunlink, Option.bind_eq_bind, Option.bind_some] at hk
  obtain ⟨s₂, hfree, hk⟩ := Option.bind_eq_some_iff.mp hk
  obtain ⟨rfl, _⟩ := Prod.mk.inj (Option.some.inj hk)
  have hroom : v.free.length < maxProcessCnt := by
    have hnodup : (c :: v.free).Nodup :=
      List.nodup_cons.mpr ⟨fun hmem => hlive (hslot.pooled c hmem), hslot.nodup⟩
    simpa [Slot] using hnodup.length_le_card
  have hout : ∀ q, c ∉ Function.update v.kids p ((v.kids p).erase c) q := by
    intro q hq
    rcases eq_or_ne q p with rfl | hqp
    · rw [Function.update_self] at hq
      exact (hv.nodup q).not_mem_erase hq
    · rw [Function.update_of_ne hqp] at hq
      exact hother q hqp c hkid hq
  exact h.withSched (h₁.release hroom hout hfree) rfl rfl

end Punix
