import Punix.Kernel.SchedMachine

/-!
What the calls of the scheduler leave of the tasks, and which slots its pointers
lead to. A relation between a task before and after is respected by a whole call
when the few writes that the scheduler makes to a task respect it: links, states
other than zombie, counters and pending signals. Creation and exit write more,
and the lemmas about them name the state after that write.
-/

namespace Punix

open Lib

/-- A relation between a task before and after that the usual writes respect. -/
structure Task.Frame (R : Task → Task → Prop) : Prop where
  refl : ∀ t, R t t
  trans : ∀ {t t' t''}, R t t' → R t' t'' → R t t''
  next : ∀ t next, R t { t with next }
  children : ∀ t children, R t { t with children }
  nextSibling : ∀ t nextSibling, R t { t with nextSibling }
  ctxt : ∀ t ctxt, R t { t with ctxt }
  pending : ∀ t pending, R t { t with pending }
  state : ∀ t state, state ≠ .zombie → R t { t with state }
  free : ∀ t, R t { t with
    pid := pidNone, state := .pooled, children := none, parent := none, nextSibling := none }

/-- The pointers from which the scheduler takes the next task lead to slots in `L`. -/
structure Scheduler.Points (L : Slot → Prop) (s : Scheduler) : Prop where
  current : ∀ t, s.current = some t → L t
  swapper : ∀ t, s.swapper = some t → L t
  first : ∀ t, s.runQueue.first = some t → L t
  last : ∀ t, s.runQueue.last = some t → L t
  next : ∀ t u, (s.task t).next = some u → L u

/-- The tasks on the stacks of the sleepers are in `L`, too. -/
structure Kernel.Points (L : Slot → Prop) (k : Kernel) : Prop where
  sched : k.sched.Points L
  sleeper : ∀ e t, k.waits.task e = some t → L t

/-- The state after the two writes of `sched_exit` to the task. -/
def Kernel.zombie (k : Kernel) (t : Slot) (status : BitVec 32) : Kernel :=
  k.modifyTask t fun task => { task with exitStatus := status, state := .zombie }

/-- Every task of `s'` is related to what it was in `s`, and the pointers of `s'`
lead to `L`. -/
structure Keeps (R : Task → Task → Prop) (L : Slot → Prop) (s s' : Scheduler) : Prop where
  task : ∀ c, R (s.task c) (s'.task c)
  points : s'.Points L

/-- The same of a whole kernel. -/
structure KernelKeeps (R : Task → Task → Prop) (L : Slot → Prop) (k k' : Kernel) : Prop where
  task : ∀ c, R (k.sched.task c) (k'.sched.task c)
  points : k'.Points L

theorem Scheduler.points_true (s : Scheduler) : s.Points fun _ => True :=
  ⟨fun _ _ => trivial, fun _ _ => trivial, fun _ _ => trivial, fun _ _ => trivial,
    fun _ _ _ => trivial⟩

theorem Kernel.points_true (k : Kernel) : k.Points fun _ => True :=
  ⟨k.sched.points_true, fun _ _ _ => trivial⟩

section Frame

variable {R : Task → Task → Prop} {L : Slot → Prop} {s s' s'' : Scheduler} {k k' k'' : Kernel}
variable {t : Slot}

/-- One task is written; its `next` pointer stays in `L`. -/
theorem Scheduler.Points.modifyTask (hp : s.Points L) (t : Slot) {f : Task → Task}
    (hnext : ∀ u, (f (s.task t)).next = some u → L u) : (s.modifyTask t f).Points L where
  current := hp.current
  swapper := hp.swapper
  first := hp.first
  last := hp.last
  next c u hu := by
    rcases eq_or_ne c t with rfl | hne
    · rw [Scheduler.task_modifyTask_self] at hu
      exact hnext u hu
    · rw [Scheduler.task_modifyTask_of_ne _ _ _ _ hne] at hu
      exact hp.next c u hu

variable (hR : Task.Frame R)
include hR

namespace Keeps

theorem refl (hp : s.Points L) : Keeps R L s s := ⟨fun c => hR.refl (s.task c), hp⟩

theorem trans (h : Keeps R L s s') (h' : Keeps R L s' s'') : Keeps R L s s'' :=
  ⟨fun c => hR.trans (h.task c) (h'.task c), h'.points⟩

/-- One task is written, but for its `next` pointer. -/
theorem modifyTask (hp : s.Points L) (t : Slot) {f : Task → Task}
    (hf : R (s.task t) (f (s.task t))) (hnext : (f (s.task t)).next = (s.task t).next) :
    Keeps R L s (s.modifyTask t f) where
  task c := by
    rcases eq_or_ne c t with rfl | hne
    · rw [Scheduler.task_modifyTask_self]
      exact hf
    · rw [Scheduler.task_modifyTask_of_ne _ _ _ _ hne]
      exact hR.refl _
  points := hp.modifyTask t fun u hu => hp.next t u (hnext ▸ hu)

theorem setNext (hp : s.Points L) (t : Slot) {next : Option Slot}
    (hnext : ∀ u, next = some u → L u) :
    Keeps R L s (s.modifyTask t fun task => { task with next }) where
  task c := by
    rcases eq_or_ne c t with rfl | hne
    · rw [Scheduler.task_modifyTask_self]
      exact hR.next _ _
    · rw [Scheduler.task_modifyTask_of_ne _ _ _ _ hne]
      exact hR.refl _
  points := hp.modifyTask t hnext

theorem runQueuePush (hp : s.Points L) (ht : L t) (h : Punix.runQueuePush s t = some s') :
    Keeps R L s s' := by
  have hfirst : Keeps R L s (s.modifyTask t fun task => { task with next := none }) :=
    setNext hR hp t nofun
  have hself : ∀ u, some t = some u → L u := fun u hu => Option.some.inj hu ▸ ht
  unfold Punix.runQueuePush at h
  dsimp only at h
  split at h
  · obtain rfl := Option.some.inj h
    have hp := hfirst.points
    exact ⟨hfirst.task, hp.current, hp.swapper, hself, hself, hp.next⟩
  · split at h
    · cases h
    · next last _ =>
        obtain rfl := Option.some.inj h
        have hlast := trans hR hfirst (setNext hR hfirst.points last hself)
        have hp := hlast.points
        exact ⟨hlast.task, hp.current, hp.swapper, hp.first, hself, hp.next⟩

theorem runQueuePoll {polled : Option Slot} (hp : s.Points L)
    (h : Punix.runQueuePoll s = some (s', polled)) :
    Keeps R L s s' ∧ ∀ t, polled = some t → L t := by
  unfold Punix.runQueuePoll at h
  dsimp only at h
  split at h
  · obtain ⟨rfl, rfl⟩ := Prod.mk.inj (Option.some.inj h)
    exact ⟨refl hR hp, nofun⟩
  · split at h
    · cases h
    · next first hfirst =>
        obtain ⟨rfl, rfl⟩ := Prod.mk.inj (Option.some.inj h)
        have hnext : Keeps R L s (s.modifyTask first fun task => { task with next := none }) :=
          setNext hR hp first nofun
        have hp' := hnext.points
        constructor
        · refine ⟨hnext.task, hp'.current, hp'.swapper, hp.next first, fun t ht => ?_, hp'.next⟩
          change (if s.runQueue.len - 1 = 0 then none else s.runQueue.last) = some t at ht
          split at ht
          · cases ht
          · exact hp.last t ht
        · exact fun t ht => hp.first t (hfirst.trans ht)

theorem switchTo (hp : s.Points L) {next : Slot} (hnext : L next) :
    Keeps R L s (Punix.switchTo s next) := by
  have hrun : Keeps R L s (s.modifyTask next fun task => { task with state := .running }) :=
    modifyTask hR hp next (hR.state _ _ nofun) rfl
  have hp := hrun.points
  exact ⟨hrun.task, fun t ht => Option.some.inj ht ▸ hnext, hp.swapper, hp.first, hp.last, hp.next⟩

theorem schedSchedule (hp : s.Points L) (h : Punix.schedSchedule s = some s') :
    Keeps R L s s' := by
  unfold Punix.schedSchedule at h
  obtain ⟨⟨s₁, polled⟩, hpoll, h⟩ := Option.bind_eq_some_iff.mp h
  obtain ⟨next, hnext, h⟩ := Option.bind_eq_some_iff.mp h
  obtain ⟨h₁, hpolled⟩ := runQueuePoll hR hp hpoll
  have hn : L next := by
    rcases Option.or_eq_some_iff.mp hnext with hnext | ⟨_, hnext⟩
    · exact hpolled next hnext
    · exact h₁.points.swapper next hnext
  dsimp only at h
  split at h
  · exact Option.some.inj h ▸ trans hR h₁ (switchTo hR h₁.points hn)
  · next prev hprev =>
      have h₂ : Keeps R L s
          (s₁.modifyTask prev fun task => { task with ctxt := task.ctxt + 1 }) :=
        trans hR h₁ (modifyTask hR h₁.points prev (hR.ctxt _ _) rfl)
      have hprev' := h₂.points.current prev hprev
      have h₃ := trans hR h₂ (modifyTask hR h₂.points prev (f := fun task =>
        { task with state := .queued }) (hR.state _ _ nofun) rfl)
      split at h
      · exact Option.some.inj h ▸ h₂
      split at h
      · exact Option.some.inj h ▸ trans hR h₂ (switchTo hR h₂.points hn)
      split at h
      · obtain ⟨s₄, hpush, h⟩ := Option.bind_eq_some_iff.mp h
        have h₄ := trans hR h₃ (runQueuePush hR h₃.points hprev' hpush)
        exact Option.some.inj h ▸ trans hR h₄ (switchTo hR h₄.points hn)
      · exact Option.some.inj h ▸ trans hR h₃ (switchTo hR h₃.points hn)

theorem wakeupLoop {fuel : Nat} {entry : Option Slot} {waits waits' : WaitHeap WaitQueueRef Slot Slot}
    (hp : s.Points L) (hsleeper : ∀ e t, waits.task e = some t → L t)
    (h : Punix.wakeupLoop (fun s t => (Scheduler.task s t).sleeping) schedEnqueue fuel entry waits s =
      some (waits', s')) : Keeps R L s s' ∧ waits'.task = waits.task := by
  have hend (h : some (waits, s) = some (waits', s')) :
      Keeps R L s s' ∧ waits'.task = waits.task := by
    obtain ⟨rfl, rfl⟩ := Prod.mk.inj (Option.some.inj h)
    exact ⟨refl hR hp, rfl⟩
  induction fuel generalizing entry waits s with
  | zero =>
      cases entry with
      | none => exact hend h
      | some entry => cases h
  | succ fuel ih =>
      cases entry with
      | none => exact hend h
      | some entry =>
          obtain ⟨s₁, hentry, hrest⟩ := Option.bind_eq_some_iff.mp h
          have hfirst : Keeps R L s s₁ := by
            unfold wakeEntry at hentry
            split at hentry
            · next t ht =>
                split at hentry
                · exact runQueuePush hR hp (hsleeper entry t ht) hentry
                · exact Option.some.inj hentry ▸ refl hR hp
            · exact Option.some.inj hentry ▸ refl hR hp
          have htask : (waits.modifyEntry entry fun x =>
              { x with prev := none, next := none, queue := none }).task = waits.task := by
            rw [WaitHeap.task_modifyEntry]
            exact Function.update_eq_self entry waits.task
          obtain ⟨hrest, hsame⟩ := ih hfirst.points (htask ▸ hsleeper) hrest fun h => by
            obtain ⟨rfl, rfl⟩ := Prod.mk.inj (Option.some.inj h)
            exact ⟨refl hR hfirst.points, rfl⟩
          exact ⟨trans hR hfirst hrest, hsame.trans htask⟩

theorem taskTableFree (hp : s.Points L) (h : Punix.taskTableFree s t = some s') :
    Keeps R L s s' := by
  unfold Punix.taskTableFree at h
  dsimp only at h
  split at h
  · cases h
  split at h
  · cases h
  split at h
  · cases h
  · obtain rfl := Option.some.inj h
    have hfree : Keeps R L s (s.modifyTask t fun task => { task with
        pid := pidNone, state := .pooled, children := none, parent := none, nextSibling := none }) :=
      modifyTask hR hp t (hR.free _) rfl
    have hp := hfree.points
    exact ⟨hfree.task, hp.current, hp.swapper, hp.first, hp.last, hp.next⟩

theorem unlinkSibling {c : Slot} {fuel : Nat} {node : Slot} (hp : s.Points L)
    (h : Punix.unlinkSibling s c fuel node = some s') : Keeps R L s s' := by
  induction fuel generalizing node with
  | zero => cases h
  | succ fuel ih =>
      rw [Punix.unlinkSibling] at h
      split at h
      · exact Option.some.inj h ▸ refl hR hp
      split at h
      · exact Option.some.inj h ▸ modifyTask hR hp node (hR.nextSibling _ _) rfl
      · exact ih h

theorem unlinkChild {p c : Slot} (hp : s.Points L) (h : Punix.unlinkChild s p c = some s') :
    Keeps R L s s' := by
  unfold Punix.unlinkChild at h
  split at h
  · exact Option.some.inj h ▸ refl hR hp
  split at h
  · exact Option.some.inj h ▸ modifyTask hR hp p (hR.children _ _) rfl
  · exact unlinkSibling hR hp h

end Keeps

namespace KernelKeeps

theorem refl (hp : k.Points L) : KernelKeeps R L k k := ⟨fun _ => hR.refl _, hp⟩

theorem trans (h : KernelKeeps R L k k') (h' : KernelKeeps R L k' k'') : KernelKeeps R L k k'' :=
  ⟨fun c => hR.trans (h.task c) (h'.task c), h'.points⟩

omit hR in
/-- Only the scheduler is changed. -/
theorem of_sched (hp : k.Points L) (hwaits : k'.waits.task = k.waits.task)
    (h : Keeps R L k.sched k'.sched) : KernelKeeps R L k k' :=
  ⟨h.task, h.points, fun e t ht => hp.sleeper e t (hwaits ▸ ht)⟩

theorem schedule (hp : k.Points L) (h : k.schedule = some k') : KernelKeeps R L k k' := by
  obtain ⟨s, hs, rfl⟩ := Option.map_eq_some_iff.mp h
  exact of_sched hp rfl (Keeps.schedSchedule hR hp.sched hs)

theorem wakeup {q : WaitQueueRef} (hp : k.Points L) (h : k.wakeup q = some k') :
    KernelKeeps R L k k' := by
  obtain ⟨⟨waits, sched⟩, hloop, rfl⟩ := Option.map_eq_some_iff.mp h
  obtain ⟨hkeep, htask⟩ := Keeps.wakeupLoop hR hp.sched (by exact hp.sleeper) hloop
  exact of_sched hp htask hkeep

theorem ttyInputPut {tty : TtyRef} {c : UInt8} (hp : k.Points L)
    (h : k.ttyInputPut tty c = some k') : KernelKeeps R L k k' := by
  rw [Kernel.ttyInputPut] at h
  split at h
  · exact Option.some.inj h ▸ refl hR hp
  · obtain ⟨htask, hp'⟩ := wakeup (k := k.setTty tty _) hR ⟨hp.sched, hp.sleeper⟩ h
    exact ⟨htask, hp'⟩

/-- A signal may go to any task with a pid. -/
theorem schedKill {pid sig r : Int} (hp : k.Points L)
    (hpid : ∀ t, (k.sched.task t).pid ≠ pidNone → L t)
    (h : Punix.schedKill k pid sig = some (k', r)) : KernelKeeps R L k k' := by
  have hdone {ret : Int} (h : some (k, ret) = some (k', r)) : KernelKeeps R L k k' :=
    (Prod.mk.inj (Option.some.inj h)).1 ▸ refl hR hp
  unfold Punix.schedKill at h
  split at h
  · exact hdone h
  split at h
  · exact hdone h
  · next t hfind =>
      have ht : L t := hpid t (pid_ne_pidNone_of_find hfind)
      have hpend (bit : BitVec 32) : Keeps R L k.sched
          (k.sched.modifyTask t fun task => { task with pending := task.pending ||| bit }) :=
        Keeps.modifyTask hR hp.sched t (hR.pending _ _) rfl
      dsimp only at h
      split at h
      · obtain ⟨sched, hpush, h⟩ := Option.bind_eq_some_iff.mp h
        obtain ⟨rfl, _⟩ := Prod.mk.inj (Option.some.inj h)
        exact of_sched hp rfl
          (Keeps.trans hR (hpend _) (Keeps.runQueuePush hR (hpend _).points ht hpush))
      · obtain ⟨rfl, _⟩ := Prod.mk.inj (Option.some.inj h)
        exact of_sched hp rfl (hpend _)

/-- What follows the writes of an exit. -/
theorem schedExit {status : BitVec 32} (hp : k.Points L)
    (h : Punix.schedExit k status = some k') :
    ∃ t, k.sched.current = some t ∧ KernelKeeps R L (k.zombie t status) k' := by
  obtain ⟨t, ht, h⟩ := Option.bind_eq_some_iff.mp h
  obtain ⟨k₁, hclose, h⟩ := Option.bind_eq_some_iff.mp h
  obtain ⟨k₂, hwake, h⟩ := Option.bind_eq_some_iff.mp h
  obtain ⟨p, _, h⟩ := Option.bind_eq_some_iff.mp h
  obtain ⟨hsched, hwaits, _⟩ := closeAllFiles_frame hclose
  have hstart : (k₁.zombie t status).sched = (k.zombie t status).sched := by
    rw [Kernel.zombie, Kernel.zombie, Kernel.modifyTask, Kernel.modifyTask, hsched]
  have hzombie : (k.zombie t status).sched.Points L :=
    hp.sched.modifyTask t (f := fun task => { task with exitStatus := status, state := .zombie })
      fun u hu => hp.sched.next t u hu
  have h₁ := wakeup (k := k₁.zombie t status) hR
    ⟨hstart ▸ hzombie, fun e u hu => hp.sleeper e u (hwaits ▸ hu)⟩ hwake
  have hleave {k₂ : Kernel} (h₂ : KernelKeeps R L (k₁.zombie t status) k₂)
      (h : (({ k₂ with sched := { k₂.sched with current := none } } : Kernel).setCtl t
        .dead).schedule = some k') : KernelKeeps R L (k.zombie t status) k' := by
    have hp := h₂.points.sched
    have hgone : (({ k₂ with sched := { k₂.sched with current := none } } : Kernel).setCtl t
        .dead).Points L :=
      ⟨⟨fun _ hu => (by cases hu), hp.swapper, hp.first, hp.last, hp.next⟩, h₂.points.sleeper⟩
    have hlast := schedule hR hgone h
    refine ⟨fun c => ?_, hlast.points⟩
    rw [← hstart]
    exact hR.trans (h₂.task c) (hlast.task c)
  refine ⟨t, ht, ?_⟩
  dsimp only at h
  split at h
  · obtain ⟨k₃, hwake', h⟩ := Option.bind_eq_some_iff.mp h
    exact hleave (trans hR h₁ (wakeup hR h₁.points hwake')) h
  · exact hleave h₁ h

theorem reap {p c : Slot} {status : Bool} {r : CallResult} (hp : k.Points L)
    (h : Punix.reap k p c status = some (k', r)) : KernelKeeps R L k k' := by
  obtain ⟨sched, hunlink, h⟩ := Option.bind_eq_some_iff.mp h
  obtain ⟨sched', hfree, h⟩ := Option.bind_eq_some_iff.mp h
  obtain ⟨rfl, _⟩ := Prod.mk.inj (Option.some.inj h)
  have hkeep := Keeps.unlinkChild hR hp.sched hunlink
  exact of_sched hp rfl (Keeps.trans hR hkeep (Keeps.taskTableFree hR hkeep.points hfree))

theorem finish {call : WaitCall} {r : CallResult} (hp : k.Points L)
    (h : call.finish k t = some (k', r)) : KernelKeeps R L k k' := by
  cases call with
  | ttyInput tty count =>
      obtain ⟨rfl, _⟩ := Prod.mk.inj (Option.some.inj h)
      exact of_sched hp rfl (Keeps.refl hR hp.sched)
  | childExit child status =>
      rw [WaitCall.finish] at h
      split at h
      · exact (Prod.mk.inj (Option.some.inj h)).1 ▸ refl hR hp
      · exact reap hR hp h
  | anyChild status =>
      obtain ⟨found, _, h⟩ := Option.bind_eq_some_iff.mp h
      cases found with
      | none => exact (Prod.mk.inj (Option.some.inj h)).1 ▸ refl hR hp
      | some child => exact reap hR hp h

theorem waitTest {call : WaitCall} {r : Option CallResult} (hp : k.Points L)
    (h : k.waitTest t call = some (k', r)) : KernelKeeps R L k k' := by
  obtain ⟨ready, _, h⟩ := Option.bind_eq_some_iff.mp h
  dsimp only at h
  split at h
  · obtain ⟨⟨k₁, result⟩, hfinish, h⟩ := Option.bind_eq_some_iff.mp h
    obtain ⟨rfl, _⟩ := Prod.mk.inj (Option.some.inj h)
    obtain ⟨htask, hp'⟩ := finish hR hp hfinish
    exact ⟨htask, hp'.sched, hp'.sleeper⟩
  · obtain ⟨rfl, _⟩ := Prod.mk.inj (Option.some.inj h)
    exact of_sched hp rfl (Keeps.refl hR hp.sched)

theorem waitRound {call : WaitCall} {r : Option CallResult} (hp : k.Points L)
    (h : k.waitRound t call = some (k', r)) : KernelKeeps R L k k' := by
  obtain ⟨⟨k₁, result⟩, htest, h⟩ := Option.bind_eq_some_iff.mp h
  have h₁ := waitTest hR hp htest
  cases result with
  | some result =>
      obtain ⟨rfl, _⟩ := Prod.mk.inj (Option.some.inj h)
      exact h₁
  | none =>
      obtain ⟨k₂, hschedule, h⟩ := Option.map_eq_some_iff.mp h
      obtain ⟨rfl, _⟩ := Prod.mk.inj h
      have hsleep : Keeps R L k₁.sched
          (k₁.sched.modifyTask t fun task => { task with state := .interruptible }) :=
        Keeps.modifyTask hR h₁.points.sched t (hR.state _ _ nofun) rfl
      have hadd : ((((k₁.waitSetState t call).waitAdd t call).setCtl t
          (.wait .asleep call)).waits).task = k₁.waits.task :=
        WaitHeap.task_waitQueueAdd k₁.waits t (call.queue t)
      have h₂ : KernelKeeps R L k₁ (((k₁.waitSetState t call).waitAdd t call).setCtl t
          (.wait .asleep call)) := of_sched h₁.points hadd hsleep
      exact trans hR (trans hR h₁ h₂) (schedule hR h₂.points hschedule)

theorem waitEvent {call : WaitCall} {r : Option CallResult} (hp : k.Points L) (ht : L t)
    (h : k.waitEvent t call = some (k', r)) : KernelKeeps R L k k' := by
  have hbegin : (k.waitBegin t call).Points L := by
    refine ⟨hp.sched, fun e u hu => ?_⟩
    have hu : (waitQueueEntryInit k.waits t t).task e = some u := hu
    rw [WaitHeap.task_waitQueueEntryInit] at hu
    rcases eq_or_ne e t with rfl | hne
    · rw [Function.update_self] at hu
      exact Option.some.inj hu ▸ ht
    · rw [Function.update_of_ne hne] at hu
      exact hp.sleeper e u hu
  obtain ⟨htask, hp'⟩ := waitRound hR hbegin h
  exact ⟨htask, hp'⟩

theorem schedWaitpid {pid : Int} {status : Bool} {options : BitVec 32} {r : Option CallResult}
    (hp : k.Points L) (ht : L t) (h : k.schedWaitpid t pid status options = some (k', r)) :
    KernelKeeps R L k k' := by
  cases Kernel.schedWaitpid_cases h with
  | invalid _ hk _ | noChild _ _ hk _ | noHang _ _ _ hk _ => exact hk ▸ refl hR hp
  | reaps c result _ _ hreap _ => exact reap hR hp hreap
  | waitsFor c _ _ _ _ _ hwait => exact waitEvent hR hp ht hwait
  | waitsAny _ _ _ _ _ hwait => exact waitEvent hR hp ht hwait

omit hR in
theorem points_unlink (hp : k.Points L) (t : Slot) :
    ({ k with waits := waitQueueRemove k.waits t } : Kernel).Points L := by
  refine ⟨hp.sched, fun e u hu => hp.sleeper e u ?_⟩
  have hu : (waitQueueRemove k.waits t).task e = some u := hu
  rwa [WaitHeap.task_waitQueueRemove] at hu

/-- A sleeper without a pending signal goes on. -/
theorem waitResume {call : WaitCall} {r : Option CallResult} (hp : k.Points L)
    (hpend : (k.sched.task t).pending = 0) (h : k.waitResume t call = some (k', r)) :
    KernelKeeps R L k k' := by
  have hremove : k.waitRemove t call =
      some (({ k with waits := waitQueueRemove k.waits t } : Kernel).setCtl t (.wait .test call)) :=
    if_neg (not_not.mpr hpend)
  rw [Kernel.waitResume, if_neg (not_not.mpr hpend), hremove] at h
  obtain ⟨hsched, hsleeper⟩ := points_unlink hp t
  have hp' : (({ k with waits := waitQueueRemove k.waits t } : Kernel).setCtl t
      (.wait .test call)).Points L := ⟨hsched, hsleeper⟩
  have hkeep : KernelKeeps R L (({ k with waits := waitQueueRemove k.waits t } : Kernel).setCtl t
      (.wait .test call)) k' := waitRound hR hp' h
  exact ⟨hkeep.task, hkeep.points⟩

end KernelKeeps

end Frame

/-- A sleeper with a pending signal exits. -/
theorem waitResume_exits {k k' : Kernel} {t : Slot} {call : WaitCall} {r : Option CallResult}
    (hpend : (k.sched.task t).pending ≠ 0) (h : k.waitResume t call = some (k', r)) :
    schedExit { k with waits := waitQueueRemove k.waits t } (-1) = some k' := by
  rw [Kernel.waitResume, if_pos hpend] at h
  obtain ⟨k₁, hremove, h⟩ := Option.map_eq_some_iff.mp h
  obtain ⟨rfl, _⟩ := Prod.mk.inj h
  rwa [Kernel.waitRemove, if_pos hpend] at hremove

theorem taskTableFree_self {s s' : Scheduler} {t : Slot} (h : taskTableFree s t = some s') :
    s'.task t = { s.task t with
      pid := pidNone, state := .pooled, children := none, parent := none, nextSibling := none } :=
  (taskTableFree_freed h).task

/-- The new task differs from the old one in its slot in its pid. -/
theorem taskTableAlloc_task {s s' : Scheduler} {t : Slot}
    (h : taskTableAlloc s = some (s', t)) :
    (∀ c, c ≠ t → s'.task c = s.task c) ∧ ∃ pid, s'.task t = { s.task t with pid } :=
  ⟨(taskTableAlloc_allocated h).others, _, (taskTableAlloc_allocated h).task⟩

section Creation

variable {R : Task → Task → Prop} {L : Slot → Prop} {s s' : Scheduler} {k k' : Kernel} {t : Slot}

theorem Scheduler.Points.alloc (hp : s.Points L) (h : taskTableAlloc s = some (s', t)) :
    s'.Points L := by
  have halloc := taskTableAlloc_allocated h
  refine ⟨?_, ?_, ?_, ?_, fun c u hu => ?_⟩
  · rw [halloc.current]
    exact hp.current
  · rw [halloc.swapper]
    exact hp.swapper
  · rw [halloc.runQueue]
    exact hp.first
  · rw [halloc.runQueue]
    exact hp.last
  · rw [halloc.field Task.next (fun _ _ => rfl)] at hu
    exact hp.next c u hu

/-- The slot that the next task gets. -/
def Kernel.nextSlot (k : Kernel) : Option Slot := (taskTableAlloc k.sched).map Prod.snd

/-- A call takes the slot `t` and writes a task that satisfies `P` to it; what it does
besides keeps `R`. -/
structure Creates (R : Task → Task → Prop) (k k' : Kernel) (t : Slot) (P : Task → Prop) : Prop where
  slot : k.nextSlot = some t
  new : ∃ task, P task ∧ R task (k'.sched.task t)
  old : ∀ c, c ≠ t → R (k.sched.task c) (k'.sched.task c)

/-- The writes to the new task, and then writes that keep `R`. -/
theorem Creates.of_keeps {sched : Scheduler} {P : Task → Prop} {f : Task → Task}
    (halloc : taskTableAlloc k.sched = some (sched, t)) (hf : ∀ task, P (f task))
    (h : Keeps R L (sched.modifyTask t f) k'.sched) : Creates R k k' t P where
  slot := by rw [Kernel.nextSlot, halloc, Option.map_some]
  new := by
    refine ⟨f (sched.task t), hf _, ?_⟩
    rw [← Scheduler.task_modifyTask_self sched t f]
    exact h.task t
  old c hc := by
    rw [← (taskTableAlloc_task halloc).1 c hc, ← Scheduler.task_modifyTask_of_ne sched t c f hc]
    exact h.task c

variable (hR : Task.Frame R)
include hR

namespace KernelKeeps

/-- No task is created, the program cannot be loaded, or there is a new task. -/
theorem taskKernelExec {filename : List UInt8} {ttyId : Int}
    {load : Option (BitVec 32 × BitVec 32)} {r : Option Slot} (hp : k.Points L)
    (h : Punix.taskKernelExec k filename ttyId load = some (k', r)) :
    k'.Points L ∧ (r = none ∧ k' = k ∨
      r = none ∧ (∃ t, Creates R k k' t fun task => task.pid = pidNone ∧ task.state = .pooled ∧
        task.brk = (k.sched.task t).brk ∧ task.brkLimit = (k.sched.task t).brkLimit) ∨
      ∃ t brk brkLimit, r = some t ∧ load = some (brk, brkLimit) ∧ Creates R k k' t fun task =>
        task.state = .queued ∧ task.brk = brk ∧ task.brkLimit = brkLimit) := by
  have hdone (h : some (k, none) = some (k', r)) : k'.Points L ∧ r = none ∧ k' = k := by
    obtain ⟨rfl, rfl⟩ := Prod.mk.inj (Option.some.inj h)
    exact ⟨hp, rfl, rfl⟩
  unfold Punix.taskKernelExec at h
  dsimp only at h
  split at h
  · exact (hdone h).imp_right .inl
  split at h
  · exact (hdone h).imp_right .inl
  split at h
  · exact (hdone h).imp_right .inl
  next sched t halloc =>
  have hslot : k.nextSlot = some t := by rw [Kernel.nextSlot, halloc, Option.map_some]
  have hwrite : (sched.modifyTask t (kernelExecTask { k with sched } t filename ttyId)).Points L :=
    (hp.sched.alloc halloc).modifyTask t fun u hu => (hp.sched.alloc halloc).next t u hu
  have hinit := Keeps.modifyTask hR hwrite t (f := fun task => { task with pending := 0 })
    (hR.pending _ _) rfl
  have hold {c : Slot} {s : Scheduler} (hc : c ≠ t) (h : R (((sched.modifyTask t
      (kernelExecTask { k with sched } t filename ttyId)).modifyTask t
        fun task => { task with pending := 0 }).task c) (s.task c)) :
      R (k.sched.task c) (s.task c) := by
    rwa [Scheduler.task_modifyTask_of_ne _ _ _ _ hc, Scheduler.task_modifyTask_of_ne _ _ _ _ hc,
      (taskTableAlloc_task halloc).1 c hc] at h
  split at h
  · obtain ⟨sched', hfree, h⟩ := Option.map_eq_some_iff.mp h
    obtain ⟨rfl, rfl⟩ := Prod.mk.inj h
    have hfreed := Keeps.taskTableFree hR hinit.points hfree
    refine ⟨⟨hfreed.points, hp.sleeper⟩, .inr (.inl ⟨rfl, t, hslot,
      ⟨_, ?_, hR.refl _⟩, fun c hc => hold hc (hfreed.task c)⟩)⟩
    obtain ⟨_, pid, hpid⟩ := taskTableAlloc_task halloc
    have htask := taskTableFree_self hfree
    simp only [signalInit, Kernel.modifyTask, Kernel.setCtl, Scheduler.task_modifyTask_self,
      kernelExecTask, hpid] at htask
    dsimp only
    rw [htask]
    exact ⟨rfl, rfl, rfl, rfl⟩
  · next brk brkLimit =>
      obtain ⟨rfl, rfl⟩ := Prod.mk.inj (Option.some.inj h)
      have hlast := hinit.points.modifyTask t (f := fun task => { task with brk, brkLimit })
        fun u hu => hinit.points.next t u hu
      refine ⟨⟨hlast, hp.sleeper⟩, .inr (.inr ⟨t, brk, brkLimit, rfl, rfl, hslot,
        ⟨_, ?_, hR.refl _⟩, fun c hc => hold hc ?_⟩)⟩
      · simp [Kernel.modifyTask, Kernel.setCtl, signalInit, kernelExecTask]
      · simp only [Kernel.modifyTask, Kernel.setCtl, signalInit]
        rw [Scheduler.task_modifyTask_of_ne _ t c (fun task => { task with brk, brkLimit }) hc]
        exact hR.refl _

theorem schedFork {r : Int} (hp : k.Points L) (hnew : ∀ t, k.nextSlot = some t → L t)
    (h : Punix.schedFork k = some (k', r)) :
    k' = k ∧ (k.sched.current = none ∨ k.nextSlot = none) ∨
      k'.Points L ∧ ∃ p t, k.sched.current = some p ∧
      Creates R k k' t fun task => ∃ old, task = forkTask p (k.sched.task p) old := by
  unfold Punix.schedFork at h
  split at h
  · next hcur => exact .inl ⟨(Prod.mk.inj (Option.some.inj h)).1.symm, .inl hcur⟩
  · next p hcur =>
      split at h
      · next halloc =>
          refine .inl ⟨(Prod.mk.inj (Option.some.inj h)).1.symm, .inr ?_⟩
          rw [Kernel.nextSlot, halloc, Option.map_none]
      · next sched t halloc =>
          obtain ⟨sched', hpush, h⟩ := Option.bind_eq_some_iff.mp h
          obtain ⟨rfl, _⟩ := Prod.mk.inj (Option.some.inj h)
          have hparent : forkTask p (sched.task p) = forkTask p (k.sched.task p) := by
            obtain ⟨hother, pid, htask⟩ := taskTableAlloc_task halloc
            rcases eq_or_ne p t with rfl | hne
            · rw [htask]
              rfl
            · rw [hother p hne]
          have ht : L t := hnew t (by rw [Kernel.nextSlot, halloc, Option.map_some])
          have hwrite : (sched.modifyTask t (forkTask p (k.sched.task p))).Points L :=
            (hp.sched.alloc halloc).modifyTask t fun u hu => (hp.sched.alloc halloc).next t u hu
          have hchildren := Keeps.modifyTask hR hwrite p (f := fun task =>
            { task with children := some t }) (hR.children _ _) rfl
          have hpending := Keeps.modifyTask hR hchildren.points t (f := fun task =>
            { task with pending := 0 }) (hR.pending _ _) rfl
          have hpush' := Keeps.runQueuePush hR hpending.points ht (hparent ▸ hpush)
          have hkeep := Keeps.trans hR (Keeps.trans hR hchildren hpending) hpush'
          exact .inr ⟨⟨hkeep.points, hp.sleeper⟩, p, t, hcur,
            .of_keeps halloc (fun task => ⟨task, rfl⟩) hkeep⟩

/-- The program is not started, or its task is put into the run queue. -/
theorem schedKernelExec {filename : List UInt8} {ttyId : Int}
    {load : Option (BitVec 32 × BitVec 32)} {r : Int} (hp : k.Points L)
    (hnew : ∀ t, k.nextSlot = some t → L t)
    (h : Punix.schedKernelExec k filename ttyId load = some (k', r)) :
    k'.Points L ∧ (k' = k ∨
      (∃ t, Creates R k k' t fun task => task.pid = pidNone ∧ task.state = .pooled ∧
        task.brk = (k.sched.task t).brk ∧ task.brkLimit = (k.sched.task t).brkLimit) ∨
      ∃ t brk brkLimit, load = some (brk, brkLimit) ∧ Creates R k k' t fun task =>
        task.state = .queued ∧ task.brk = brk ∧ task.brkLimit = brkLimit) := by
  obtain ⟨⟨k₁, task⟩, hexec, hqueue⟩ := Option.bind_eq_some_iff.mp h
  obtain ⟨hp₁, hcase⟩ := taskKernelExec hR hp hexec
  rcases hcase with ⟨rfl, heq⟩ | ⟨rfl, hfailed⟩ | ⟨t, brk, brkLimit, rfl, hload, hcreates⟩
  · obtain ⟨rfl, _⟩ := Prod.mk.inj (Option.some.inj hqueue)
    exact ⟨hp₁, .inl heq⟩
  · obtain ⟨rfl, _⟩ := Prod.mk.inj (Option.some.inj hqueue)
    exact ⟨hp₁, .inr (.inl hfailed)⟩
  · obtain ⟨sched, hpush, hqueue⟩ := Option.bind_eq_some_iff.mp hqueue
    obtain ⟨rfl, _⟩ := Prod.mk.inj (Option.some.inj hqueue)
    have hkeep := Keeps.runQueuePush hR hp₁.sched (hnew t hcreates.slot) hpush
    obtain ⟨hslot, ⟨task, hP, htask⟩, hold⟩ := hcreates
    exact ⟨⟨hkeep.points, hp₁.sleeper⟩, .inr (.inr ⟨t, brk, brkLimit, hload, hslot,
      ⟨task, hP, hR.trans htask (hkeep.task t)⟩,
      fun c hc => hR.trans (hold c hc) (hkeep.task c)⟩)⟩

end KernelKeeps

end Creation

/-- The task that exits in the step, and its exit code. A sleeper that a signal
ends passes -1. -/
def SchedEvent.exitCode (k : Kernel) : SchedEvent → Option (Slot × BitVec 32)
  | .exit status => k.sched.current.map (·, status)
  | .resume => k.sched.current.bind fun t =>
      if (k.sched.task t).pending ≠ 0 then some (t, -1) else none
  | _ => none

/-- Program starts and forks, exits, and the steps that make only the usual writes. -/
inductive StepKind (R : Task → Task → Prop) (L : Slot → Prop) (k k' : Kernel) : SchedEvent → Prop
  | kernelExec {filename : List UInt8} {ttyId : Int} {load : Option (BitVec 32 × BitVec 32)} {r : Int}
      (h : Punix.schedKernelExec k filename ttyId load = some (k', r)) :
      StepKind R L k k' (.kernelExec filename ttyId load)
  | fork {r : Int} (h : Punix.schedFork k = some (k', r)) : StepKind R L k k' .fork
  | exit {e : SchedEvent} {t : Slot} {status : BitVec 32} (he : e.exitCode k = some (t, status))
      (h : KernelKeeps R L (k.zombie t status) k') : StepKind R L k k' e
  | usual {e : SchedEvent} (he : e.exitCode k = none) (h : KernelKeeps R L k k') :
      StepKind R L k k' e

theorem stepKind {R : Task → Task → Prop} {L : Slot → Prop} (hR : Task.Frame R) {k k' : Kernel}
    {e : SchedEvent} (hp : k.Points L) (hpid : ∀ t, (k.sched.task t).pid ≠ pidNone → L t)
    (hs : e.Step k k') : StepKind R L k k' e := by
  cases e with
  | kernelExec filename ttyId load =>
      obtain ⟨r, hk⟩ := hs
      exact .kernelExec hk
  | fork =>
      obtain ⟨_, r, hk⟩ := hs
      exact .fork hk
  | schedule => exact .usual rfl (KernelKeeps.schedule hR hp hs.2)
  | exit status =>
      obtain ⟨t, ht, hkeep⟩ := KernelKeeps.schedExit hR hp hs.2
      refine .exit (t := t) ?_ hkeep
      rw [SchedEvent.exitCode, ht, Option.map_some]
  | kill pid sig =>
      obtain ⟨r, hk⟩ := hs
      exact .usual rfl (KernelKeeps.schedKill hR hp hpid hk)
  | ttyRead tty count =>
      obtain ⟨t, r, ht, hk⟩ := hs
      exact .usual rfl (KernelKeeps.waitEvent hR hp (hp.sched.current t ht.current) hk)
  | waitpid pid status options =>
      obtain ⟨t, r, ht, hk⟩ := hs
      exact .usual rfl (KernelKeeps.schedWaitpid hR hp (hp.sched.current t ht.current) hk)
  | resume =>
      obtain ⟨t, call, r, ht, _, hk⟩ := hs
      rcases eq_or_ne (k.sched.task t).pending 0 with hpend | hpend
      · refine .usual ?_ (KernelKeeps.waitResume hR hp hpend hk)
        rw [SchedEvent.exitCode, ht, Option.bind_some, if_neg (not_not.mpr hpend)]
      · obtain ⟨u, hu, hkeep⟩ := KernelKeeps.schedExit hR (KernelKeeps.points_unlink hp t)
          (waitResume_exits hpend hk)
        obtain rfl : t = u := Option.some.inj (ht.symm.trans hu)
        have hcode : SchedEvent.resume.exitCode k = some (t, -1) := by
          rw [SchedEvent.exitCode, ht, Option.bind_some, if_pos hpend]
        exact .exit hcode ⟨hkeep.task, hkeep.points⟩
  | wakeup q => exact .usual rfl (KernelKeeps.wakeup hR hp hs)
  | ttyInput tty c => exact .usual rfl (KernelKeeps.ttyInputPut hR hp hs)
  | outside =>
      obtain ⟨hsched, hwaits, _⟩ := hs
      refine .usual rfl ⟨fun c => ?_, hsched ▸ hp.sched, fun e t ht => hp.sleeper e t (hwaits ▸ ht)⟩
      rw [hsched]
      exact hR.refl _

end Punix
