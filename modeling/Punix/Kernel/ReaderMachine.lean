import Punix.Kernel.SchedMachine

/-!
Reading from a terminal, statement by statement. The steps of a task are the
statements of the loop of `wait_event`, and the keyboard interrupt may run
`tty_input_put` between any two of them. A reader on the wait queue of a terminal
finds the terminal empty, unless a byte arrives behind the test of its condition
and ahead of `wait_queue_add`: the wakeup for that byte does not reach it.
-/

namespace Punix

open Lib

inductive ReaderEvent where
  /-- `tty_read` is called, and `wait_event` with it. -/
  | read (tty : TtyRef) (count : Nat)
  /-- The next statement of the current task inside of `wait_event`. -/
  | statement
  | schedule
  | ttyInput (tty : TtyRef) (c : UInt8)

namespace ReaderEvent

def Step (k : Kernel) (e : ReaderEvent) (k' : Kernel) : Prop :=
  match e with
  | .read tty count => ∃ t, k.AtUser t ∧ k' = k.waitBegin t (.ttyInput tty count)
  | .statement => ∃ t point call r, k.sched.current = some t ∧ k.ctl t = .wait point call ∧
      k.waitStep t call point = some (k', r)
  | .schedule => (∀ t, k.sched.current = some t → k.ctl t = .user) ∧ k.schedule = some k'
  | .ttyInput tty c => k.ttyInputPut tty c = some k'

/-- The current task has tested the terminal `tty`, found it empty, and is not on
its wait queue yet. -/
def Deciding (k : Kernel) (tty : TtyRef) : Prop :=
  ∃ t count, k.sched.current = some t ∧
    (k.ctl t = .wait .setState (.ttyInput tty count) ∨ k.ctl t = .wait .add (.ttyInput tty count))

/-- A byte that the step stores does not come in between the test of a reader of
that terminal and its `wait_queue_add`. -/
def InTime (k : Kernel) : ReaderEvent → Prop
  | .ttyInput tty _ => k.ttyHasRoom tty → ¬ Deciding k tty
  | _ => True

end ReaderEvent

/-- No task is in a system call, and no wait queue has entries. -/
structure Kernel.Quiet (k : Kernel) : Prop where
  linked : k.waits.Linked fun _ => []
  notWaiting : ∀ t point call, k.ctl t ≠ .wait point call

def readerMachine : Machine Kernel ReaderEvent where
  init := Kernel.Quiet
  step := ReaderEvent.Step

variable {k k' : Kernel} {s s' : Scheduler} {t : Slot} {q : WaitQueueRef} {tty : TtyRef}
  {lists : WaitQueueRef → List Slot} {call : WaitCall}

theorem current_runQueuePush (h : runQueuePush s t = some s') : s'.current = s.current := by
  unfold runQueuePush at h
  dsimp only at h
  split at h
  · exact Option.some.inj h ▸ rfl
  · split at h
    · cases h
    · exact Option.some.inj h ▸ rfl

theorem current_wakeAll {tasks : List (Option Slot)}
    (h : WaitHeap.wakeAll (fun s t => (Scheduler.task s t).sleeping) schedEnqueue tasks s = some s') :
    s'.current = s.current := by
  induction tasks generalizing s with
  | nil => exact Option.some.inj h ▸ rfl
  | cons task tasks ih =>
      obtain ⟨s₁, hfirst, hrest⟩ := Option.bind_eq_some_iff.mp h
      refine (ih hrest).trans ?_
      cases task with
      | none => exact Option.some.inj hfirst ▸ rfl
      | some t =>
          simp only [wakeEntry] at hfirst
          split at hfirst
          · exact current_runQueuePush hfirst
          · exact Option.some.inj hfirst ▸ rfl

/-- A wakeup empties its queue, and leaves the processor to the current task. -/
theorem Kernel.wakeup_spec (hl : k.waits.Linked lists) (hk : k.wakeup q = some k') :
    k'.waits.Linked (Function.update lists q []) ∧ k'.sched.current = k.sched.current ∧
      k'.ctl = k.ctl ∧ k'.ttys = k.ttys := by
  have hlen : (lists q).length ≤ maxProcessCnt := by
    simpa [Slot] using (hl.nodup q).length_le_card
  rw [Kernel.wakeup, hl.wakeup_eq _ _ _ hlen, Option.map_map] at hk
  obtain ⟨s', hwake, rfl⟩ := Option.map_eq_some_iff.mp hk
  exact ⟨hl.detach q, current_wakeAll hwake, rfl, rfl⟩

theorem Kernel.schedule_spec (hk : k.schedule = some k') :
    k'.waits = k.waits ∧ k'.ctl = k.ctl ∧ k'.ttys = k.ttys := by
  obtain ⟨s', _, rfl⟩ := Option.map_eq_some_iff.mp hk
  exact ⟨rfl, rfl, rfl⟩

/-- What holds between any two statements. The wait queues are the lists `lists`;
a task is on one of them only behind `wait_queue_add`, and has the processor
everywhere in the loop but in `sched_schedule`. -/
structure Readers (k : Kernel) (lists : WaitQueueRef → List Slot) : Prop where
  linked : k.waits.Linked lists
  reading : ∀ t point call, k.ctl t = .wait point call → ∃ tty count, call = .ttyInput tty count
  behindAdd : ∀ q, ∀ t ∈ lists q, ∃ call, k.ctl t = .wait .schedule call ∨ k.ctl t = .wait .asleep call
  running : ∀ t point call, k.ctl t = .wait point call → point ≠ .asleep → k.sched.current = some t
  empty : ∀ tty, ∀ t ∈ lists (.inWaitQueue tty), (k.ttys tty).inHead = (k.ttys tty).inTail
  tested : ∀ t tty count, k.ctl t = .wait .setState (.ttyInput tty count) ∨
    k.ctl t = .wait .add (.ttyInput tty count) → (k.ttys tty).inHead = (k.ttys tty).inTail

namespace Readers

theorem of_quiet (h : k.Quiet) : Readers k fun _ => [] where
  linked := h.linked
  reading t point call ht := absurd ht (h.notWaiting t point call)
  behindAdd q t ht := by cases ht
  running t point call ht := absurd ht (h.notWaiting t point call)
  empty tty t ht := by cases ht
  tested t tty count ht := by
    rcases ht with ht | ht <;> exact absurd ht (h.notWaiting t _ _)

/-- A task in front of `wait_queue_add`, or outside of the loop, is on no queue. -/
theorem notMem (h : Readers k lists) (hctl : ∀ call, k.ctl t ≠ .wait .schedule call ∧
    k.ctl t ≠ .wait .asleep call) (q : WaitQueueRef) : t ∉ lists q := by
  intro hmem
  obtain ⟨call, hat | hat⟩ := h.behindAdd q t hmem
  · exact (hctl call).1 hat
  · exact (hctl call).2 hat

theorem queue_none (h : Readers k lists) (ht : ∀ q, t ∉ lists q) : k.waits.queue t = none := by
  cases hq : k.waits.queue t with
  | none => rfl
  | some q => exact absurd ((h.linked.queue_iff t q).mp hq) (ht q)

theorem wakeup (h : Readers k lists) (hk : k.wakeup q = some k') :
    Readers k' (Function.update lists q []) := by
  obtain ⟨hlinked, hcur, hctl, httys⟩ := Kernel.wakeup_spec h.linked hk
  have hmem {q' : WaitQueueRef} {t : Slot} (ht : t ∈ Function.update lists q [] q') :
      t ∈ lists q' := by
    rcases eq_or_ne q' q with rfl | hne
    · simp at ht
    · simpa [hne] using ht
  exact {
    linked := hlinked
    reading := hctl ▸ h.reading
    behindAdd := fun q' t ht => hctl ▸ h.behindAdd q' t (hmem ht)
    running := by
      rw [hctl, hcur]
      exact h.running
    empty := fun tty t ht => httys ▸ h.empty tty t (hmem ht)
    tested := by
      rw [hctl, httys]
      exact h.tested }

/-- The processor goes to another task while nobody is inside of the loop. -/
theorem schedule (h : Readers k lists)
    (hidle : ∀ t point call, k.ctl t = .wait point call → point = .asleep)
    (hk : k.schedule = some k') : Readers k' lists := by
  obtain ⟨hwaits, hctl, httys⟩ := Kernel.schedule_spec hk
  exact {
    linked := hwaits ▸ h.linked
    reading := hctl ▸ h.reading
    behindAdd := hctl ▸ h.behindAdd
    running := fun t point call ht hne => absurd (hidle t point call (hctl ▸ ht)) hne
    empty := httys ▸ h.empty
    tested := by
      rw [hctl, httys]
      exact h.tested }

theorem setCurrent (h : Readers k lists)
    (hidle : ∀ t point call, k.ctl t = .wait point call → point = .asleep) (current : Option Slot) :
    Readers { k with sched := { k.sched with current } } lists :=
  ⟨h.linked, h.reading, h.behindAdd,
    fun u point call hu hne => absurd (hidle u point call hu) hne, h.empty, h.tested⟩

/-- The fields that are not mentioned do not matter. -/
theorem congr (h : Readers k lists) (hwaits : k'.waits = k.waits) (hctl : k'.ctl = k.ctl)
    (httys : k'.ttys = k.ttys) (hcur : k'.sched.current = k.sched.current) : Readers k' lists where
  linked := hwaits ▸ h.linked
  reading := hctl ▸ h.reading
  behindAdd := hctl ▸ h.behindAdd
  running := by
    rw [hctl, hcur]
    exact h.running
  empty := httys ▸ h.empty
  tested := by
    rw [hctl, httys]
    exact h.tested

/-- The current task moves on. It is on no queue, or is behind `wait_queue_add`. -/
theorem setCtl {ctl : Ctl} (h : Readers k lists) (hcur : k.sched.current = some t)
    (hplace : (∀ q, t ∉ lists q) ∨ ∃ call, ctl = .wait .schedule call ∨ ctl = .wait .asleep call)
    (hreading : ∀ point call, ctl = .wait point call → ∃ tty count, call = .ttyInput tty count)
    (htested : ∀ tty count, ctl = .wait .setState (.ttyInput tty count) ∨
      ctl = .wait .add (.ttyInput tty count) → (k.ttys tty).inHead = (k.ttys tty).inTail) :
    Readers (k.setCtl t ctl) lists := by
  have hself : (k.setCtl t ctl).ctl t = ctl := Function.update_self ..
  have hother {u : Slot} (hu : u ≠ t) : (k.setCtl t ctl).ctl u = k.ctl u :=
    Function.update_of_ne hu ..
  refine ⟨h.linked, fun u point call hu => ?_, fun q u hu => ?_, fun u point call hu hne => ?_,
    h.empty, fun u tty count hu => ?_⟩
  · rcases eq_or_ne u t with rfl | hut
    · exact hreading point call (hself ▸ hu)
    · exact h.reading u point call (hother hut ▸ hu)
  · rcases eq_or_ne u t with rfl | hut
    · rw [hself]
      exact hplace.resolve_left fun hout => hout q hu
    · rw [hother hut]
      exact h.behindAdd q u hu
  · rcases eq_or_ne u t with rfl | hut
    · exact hcur
    · exact h.running u point call (hother hut ▸ hu) hne
  · rcases eq_or_ne u t with rfl | hut
    · exact htested tty count (hself ▸ hu)
    · exact h.tested u tty count (hother hut ▸ hu)

/-- `wait_queue_add` for a terminal that is empty. -/
theorem link (h : Readers k lists) (hctl : k.ctl t = .wait .schedule call)
    (hout : ∀ q, t ∉ lists q) (hempty : (k.ttys tty).inHead = (k.ttys tty).inTail) :
    Readers { k with waits := waitQueueAdd k.waits (.inWaitQueue tty) t }
      (Function.update lists (.inWaitQueue tty) (lists (.inWaitQueue tty) ++ [t])) := by
  have hmem {q : WaitQueueRef} {u : Slot} (hu : u ∈ Function.update lists (.inWaitQueue tty)
      (lists (.inWaitQueue tty) ++ [t]) q) : u ∈ lists q ∨ u = t ∧ q = .inWaitQueue tty := by
    rcases eq_or_ne q (.inWaitQueue tty) with rfl | hne
    · simpa using hu
    · exact .inl (by simpa [hne] using hu)
  refine ⟨h.linked.add (h.queue_none hout) _, h.reading, fun q u hu => ?_, h.running,
    fun tty' u hu => ?_, h.tested⟩
  · rcases hmem hu with hu | ⟨rfl, _⟩
    · exact h.behindAdd q u hu
    · exact ⟨call, .inl hctl⟩
  · rcases hmem hu with hu | ⟨_, heq⟩
    · exact h.empty tty' u hu
    · cases heq
      exact hempty

/-- Once the current task is behind the loop, or asleep in it, everybody is. -/
theorem idle (h : Readers k lists) (hcur : k.sched.current = some t)
    (hctl : ∀ point call, k.ctl t = .wait point call → point = .asleep) (u : Slot)
    (point : WaitPoint) (call : WaitCall) (hu : k.ctl u = .wait point call) : point = .asleep := by
  by_contra hne
  obtain rfl : t = u := Option.some.inj (hcur.symm.trans (h.running u point call hu hne))
  exact hne (hctl point call hu)

theorem waitBegin {count : Nat} (h : Readers k lists) (ht : k.AtUser t) :
    Readers (k.waitBegin t (.ttyInput tty count)) lists := by
  have hout := h.notMem (t := t) (by simp [ht.ctl])
  have hinit : Readers { k with waits := waitQueueEntryInit k.waits t t } lists :=
    ⟨h.linked.entryInit (h.queue_none hout) t, h.reading, h.behindAdd, h.running, h.empty, h.tested⟩
  apply hinit.setCtl ht.current (.inl hout)
  · intro point call hctl
    cases hctl
    exact ⟨tty, count, rfl⟩
  · intro _ _ hctl
    rcases hctl with hctl | hctl <;> cases hctl

/-- The test: the reader takes what there is, or the terminal is empty. -/
theorem waitTest {count : Nat} {r : Option CallResult} (h : Readers k lists)
    (hcur : k.sched.current = some t) (hctl : k.ctl t = .wait .test (.ttyInput tty count))
    (hk : k.waitTest t (.ttyInput tty count) = some (k', r)) : Readers k' lists := by
  have hout := h.notMem (t := t) (by simp [hctl])
  simp only [Kernel.waitTest, WaitCall.cond, Option.bind_eq_bind, Option.bind_some] at hk
  split at hk
  · next havail =>
      obtain ⟨rfl, _⟩ := Prod.mk.inj (Option.some.inj hk)
      have hbytes : (k.ttys tty).inHead ≠ (k.ttys tty).inTail := by
        intro heq
        simp [ttyInputAvailable, heq] at havail
      have hother (tty' : TtyRef) (hne : (k.ttys tty').inHead = (k.ttys tty').inTail) :
          tty' ≠ tty := by
        rintro rfl
        exact hbytes hne
      -- nobody waits for a terminal that has bytes
      have htaken (ring : Tty) : Readers (k.setTty tty ring) lists := by
        refine ⟨h.linked, h.reading, h.behindAdd, h.running, fun tty' u hu => ?_,
          fun u tty' n hu => ?_⟩
        · have hempty := h.empty tty' u hu
          simpa [Kernel.setTty, hother tty' hempty] using hempty
        · have hempty := h.tested u tty' n hu
          simpa [Kernel.setTty, hother tty' hempty] using hempty
      exact (htaken _).setCtl hcur (.inl hout) (by simp) (by simp)
  · next hnone =>
      obtain ⟨rfl, _⟩ := Prod.mk.inj (Option.some.inj hk)
      have hempty : (k.ttys tty).inHead = (k.ttys tty).inTail := by
        have hzero : (k.ttys tty).inHead - (k.ttys tty).inTail = 0 := by
          simpa [ttyInputAvailable] using hnone
        bv_omega
      apply h.setCtl hcur (.inl hout)
      · intro point call heq
        cases heq
        exact ⟨tty, count, rfl⟩
      · intro _ _ heq
        rcases heq with heq | heq <;> cases heq
        exact hempty

theorem waitSetState {count : Nat} (h : Readers k lists) (hcur : k.sched.current = some t)
    (hctl : k.ctl t = .wait .setState (.ttyInput tty count)) :
    Readers (k.waitSetState t (.ttyInput tty count)) lists := by
  have hout := h.notMem (t := t) (by simp [hctl])
  have hempty := h.tested t tty count (.inl hctl)
  have hstate : Readers (k.modifyTask t fun task => { task with state := .interruptible }) lists :=
    h.congr rfl rfl rfl rfl
  apply hstate.setCtl hcur (.inl hout)
  · intro point call heq
    cases heq
    exact ⟨tty, count, rfl⟩
  · intro _ _ heq
    rcases heq with heq | heq <;> cases heq
    exact hempty

theorem waitAdd {count : Nat} (h : Readers k lists) (hcur : k.sched.current = some t)
    (hctl : k.ctl t = .wait .add (.ttyInput tty count)) :
    Readers (k.waitAdd t (.ttyInput tty count))
      (Function.update lists (.inWaitQueue tty) (lists (.inWaitQueue tty) ++ [t])) := by
  have hout := h.notMem (t := t) (by simp [hctl])
  have hempty := h.tested t tty count (.inr hctl)
  have hbehind : Readers (k.setCtl t (.wait .schedule (.ttyInput tty count))) lists := by
    apply h.setCtl hcur (.inl hout)
    · intro point call heq
      cases heq
      exact ⟨tty, count, rfl⟩
    · intro _ _ heq
      rcases heq with heq | heq <;> cases heq
  exact hbehind.link (Function.update_self ..) hout hempty

theorem waitSchedule {count : Nat} (h : Readers k lists) (hcur : k.sched.current = some t)
    (hk : k.waitSchedule t (.ttyInput tty count) = some k') : Readers k' lists := by
  have hasleep : Readers (k.setCtl t (.wait .asleep (.ttyInput tty count))) lists := by
    apply h.setCtl hcur (.inr ⟨_, .inr rfl⟩)
    · intro point call heq
      cases heq
      exact ⟨tty, count, rfl⟩
    · intro _ _ heq
      rcases heq with heq | heq <;> cases heq
  apply hasleep.schedule (hasleep.idle hcur _) hk
  intro point call heq
  have hself : (k.setCtl t (.wait .asleep (.ttyInput tty count))).ctl t = _ :=
    Function.update_self ..
  rw [hself] at heq
  cases heq
  rfl

/-- An exit wakes the queues of the task and of its parent. -/
theorem exit {status : BitVec 32} (h : Readers k lists) (hcur : k.sched.current = some t)
    (hout : ∀ q, t ∉ lists q) (hk : schedExit k status = some k') :
    ∃ lists', Readers k' lists' := by
  unfold schedExit at hk
  rw [hcur, Option.bind_eq_bind, Option.bind_some] at hk
  obtain ⟨k₁, hclose, hk⟩ := Option.bind_eq_some_iff.mp hk
  obtain ⟨hsched, hwaits, hctl, httys⟩ := closeAllFiles_frame hclose
  have h₁ := h.congr hwaits hctl httys (congrArg Scheduler.current hsched)
  have h₂ : Readers (k₁.modifyTask t fun task =>
      { task with exitStatus := status, state := .zombie }) lists := h₁.congr rfl rfl rfl rfl
  have hcur₂ : k₁.sched.current = some t := (congrArg Scheduler.current hsched).trans hcur
  obtain ⟨k₃, hwake, hk⟩ := Option.bind_eq_some_iff.mp hk
  have h₃ := h₂.wakeup hwake
  have hcur₃ : k₃.sched.current = some t := (Kernel.wakeup_spec h₂.linked hwake).2.1.trans hcur₂
  obtain ⟨p, _, hk⟩ := Option.bind_eq_some_iff.mp hk
  have hkeep {lists : WaitQueueRef → List Slot} (hout : ∀ q, t ∉ lists q) (q q' : WaitQueueRef) :
      t ∉ Function.update lists q [] q' := by
    rcases eq_or_ne q' q with rfl | hne
    · simp
    · simpa [hne] using hout q'
  -- the task is dead before it gives the processor away
  have hlast {k₄ : Kernel} {lists₄ : WaitQueueRef → List Slot} (h₄ : Readers k₄ lists₄)
      (hcur₄ : k₄.sched.current = some t) (hout₄ : ∀ q, t ∉ lists₄ q)
      (hs : (({ k₄ with sched := { k₄.sched with current := none } } : Kernel).setCtl t
        .dead).schedule = some k') : ∃ lists', Readers k' lists' := by
    have hdead : Readers (k₄.setCtl t .dead) lists₄ :=
      h₄.setCtl hcur₄ (.inl hout₄) (by simp) (by simp)
    have hidle := hdead.idle hcur₄ (by simp [Kernel.setCtl])
    exact ⟨lists₄, (hdead.setCurrent hidle none).schedule hidle hs⟩
  dsimp only at hk
  split at hk
  · obtain ⟨k₄, hwake', hk⟩ := Option.bind_eq_some_iff.mp hk
    have hcur₄ := (Kernel.wakeup_spec h₃.linked hwake').2.1.trans hcur₃
    exact hlast (h₃.wakeup hwake') hcur₄ (hkeep (hkeep hout _) _) hk
  · exact hlast h₃ hcur₃ (hkeep hout _) hk

/-- Behind `sched_schedule` the entry is removed, and a signal ends the task. -/
theorem waitRemove {count : Nat} (h : Readers k lists) (hcur : k.sched.current = some t)
    (hk : k.waitRemove t (.ttyInput tty count) = some k') : ∃ lists', Readers k' lists' := by
  have hremoved : Readers { k with waits := waitQueueRemove k.waits t } fun q => (lists q).erase t :=
    ⟨h.linked.removeAny t, h.reading, fun q u hu => h.behindAdd q u (List.mem_of_mem_erase hu),
      h.running, fun tty' u hu => h.empty tty' u (List.mem_of_mem_erase hu), h.tested⟩
  have hout (q : WaitQueueRef) : t ∉ (lists q).erase t := (h.linked.nodup q).not_mem_erase
  unfold Kernel.waitRemove at hk
  dsimp only at hk
  split at hk
  · exact hremoved.exit hcur hout hk
  · obtain rfl := Option.some.inj hk
    refine ⟨_, hremoved.setCtl hcur (.inl hout) ?_ ?_⟩
    · intro point call heq
      cases heq
      exact ⟨tty, count, rfl⟩
    · intro _ _ heq
      rcases heq with heq | heq <;> cases heq

/-- A byte that is stored finds nobody between test and `wait_queue_add`, and
takes everybody off the wait queue. -/
theorem ttyInputPut {c : UInt8} (h : Readers k lists)
    (htime : (ReaderEvent.ttyInput tty c).InTime k) (hk : k.ttyInputPut tty c = some k') :
    ∃ lists', Readers k' lists' := by
  unfold Kernel.ttyInputPut at hk
  split at hk
  · exact ⟨lists, Option.some.inj hk ▸ h⟩
  · next hroom =>
      have hnobody := htime (not_not.mp hroom)
      dsimp only at hk
      generalize hring : ({ k.ttys tty with
        inBuf := Function.update (k.ttys tty).inBuf
          (Ring.maskIndex ttyInputBufSize (k.ttys tty).inHead) c
        inHead := (k.ttys tty).inHead + 1 } : Tty) = ring at hk
      have hlinked : (k.setTty tty ring).waits.Linked lists := h.linked
      obtain ⟨hlinked', hcur, hctl, httys⟩ := Kernel.wakeup_spec hlinked hk
      have hother (tty' : TtyRef) (hne : tty' ≠ tty) : k'.ttys tty' = k.ttys tty' :=
        (congrFun httys tty').trans (Function.update_of_ne hne ..)
      have hctl' (u : Slot) : k'.ctl u = k.ctl u := congrFun hctl u
      have hmem {q : WaitQueueRef} {u : Slot}
          (hu : u ∈ Function.update lists (.inWaitQueue tty) [] q) :
          u ∈ lists q ∧ q ≠ .inWaitQueue tty := by
        rcases eq_or_ne q (.inWaitQueue tty) with rfl | hne
        · simp at hu
        · exact ⟨by simpa [hne] using hu, hne⟩
      refine ⟨_, hlinked', fun u point call hu => ?_, fun q u hu => ?_, fun u point call hu hne => ?_,
        fun tty' u hu => ?_, fun u tty' n hu => ?_⟩
      · exact h.reading u point call (hctl' u ▸ hu)
      · rw [hctl' u]
        exact h.behindAdd q u (hmem hu).1
      · exact hcur.trans (h.running u point call (hctl' u ▸ hu) hne)
      · obtain ⟨hold, hne⟩ := hmem hu
        rw [hother tty' fun heq => hne (heq ▸ rfl)]
        exact h.empty tty' u hold
      · rw [hctl' u] at hu
        have hne : tty' ≠ tty := by
          rintro rfl
          have hrunning : k.sched.current = some u := by
            rcases hu with hu | hu <;> exact h.running u _ _ hu (by simp)
          exact hnobody ⟨u, n, hrunning, hu⟩
        rw [hother tty' hne]
        exact h.tested u tty' n hu

/-- One step, with no byte at the wrong moment. -/
theorem step {e : ReaderEvent} (h : Readers k lists) (htime : e.InTime k) (hs : e.Step k k') :
    ∃ lists', Readers k' lists' := by
  cases e with
  | read tty count =>
      obtain ⟨t, ht, rfl⟩ := hs
      exact ⟨lists, h.waitBegin ht⟩
  | statement =>
      obtain ⟨t, point, call, r, hcur, hctl, hk⟩ := hs
      obtain ⟨tty, count, rfl⟩ := h.reading t point call hctl
      cases point with
      | test => exact ⟨lists, h.waitTest hcur hctl hk⟩
      | setState =>
          obtain ⟨rfl, _⟩ := Prod.mk.inj (Option.some.inj hk)
          exact ⟨lists, h.waitSetState hcur hctl⟩
      | add =>
          obtain ⟨rfl, _⟩ := Prod.mk.inj (Option.some.inj hk)
          exact ⟨_, h.waitAdd hcur hctl⟩
      | schedule =>
          obtain ⟨k₁, hk₁, heq⟩ := Option.map_eq_some_iff.mp hk
          obtain ⟨rfl, _⟩ := Prod.mk.inj heq
          exact ⟨lists, h.waitSchedule hcur hk₁⟩
      | asleep =>
          obtain ⟨k₁, hk₁, heq⟩ := Option.map_eq_some_iff.mp hk
          obtain ⟨rfl, _⟩ := Prod.mk.inj heq
          exact h.waitRemove hcur hk₁
  | schedule =>
      obtain ⟨huser, hk⟩ := hs
      refine ⟨lists, h.schedule (fun t point call hctl => ?_) hk⟩
      by_contra hne
      have hrunning := huser t (h.running t point call hctl hne)
      rw [hctl] at hrunning
      cases hrunning
  | ttyInput tty c => exact h.ttyInputPut htime hs

end Readers

/-- No reader is linked in the queue of a terminal, neither current nor in the run
queue, while the terminal has bytes. -/
def NoLostWakeup (k : Kernel) : Prop :=
  ∀ tty t, k.waits.queue t = some (.inWaitQueue tty) → k.sched.current ≠ some t →
    t ∉ k.runQueueTasks → (k.ttys tty).inHead = (k.ttys tty).inTail

theorem noLostWakeup_of_inTime (hk : readerMachine.Reaches (fun k e => e.InTime k) k) :
    NoLostWakeup k := by
  have hreaders : ∃ lists, Readers k lists := by
    apply hk.invariant
    · exact fun k hquiet => ⟨_, Readers.of_quiet hquiet⟩
    · rintro k e k' ⟨lists, h⟩ htime hs
      exact h.step htime hs
  obtain ⟨lists, h⟩ := hreaders
  intro tty t hqueue _ _
  exact h.empty tty t ((h.linked.queue_iff t _).mp hqueue)

/-- Tasks are started and forked, and take turns. -/
def SchedEvent.startsUp : SchedEvent → Bool
  | .kernelExec _ _ _ | .fork | .schedule => true
  | _ => false

theorem SchedEvent.startsUp_spec {e : SchedEvent} (h : e.startsUp) :
    e.woken k = [] ∧ e.resumes = false ∧ e.waits k = false := by
  cases e <;> simp [SchedEvent.startsUp] at h <;> exact ⟨rfl, rfl, rfl⟩

/-- Nobody waits, and nobody has been waiting. -/
structure Procs.Idle (v : Procs) : Prop where
  waitq : ∀ q, v.waitq q = []
  ctl : ∀ t point call, v.ctl t ≠ .wait point call

/-- Only going to sleep puts a task on a wait queue. -/
theorem Procs.Idle.step {v v' : Procs} {a : ProcAction} (h : v.Idle)
    (hsleep : ∀ t call, a ≠ .sleep t call) (hs : v.Step a v') : v'.Idle := by
  have hset (w : Procs) (u : Slot) (ctl : Ctl) (hw : w.ctl = Function.update v.ctl u ctl)
      (hctl : ∀ point call, ctl ≠ .wait point call) (t : Slot) (point : WaitPoint)
      (call : WaitCall) : w.ctl t ≠ .wait point call := by
    rw [hw]
    rcases eq_or_ne t u with rfl | hne
    · simpa using hctl point call
    · simpa [hne] using h.ctl t point call
  cases a with
  | exec t =>
      obtain ⟨_, rfl⟩ := hs
      exact ⟨h.waitq, hset _ t .user rfl (by simp)⟩
  | abort t =>
      obtain ⟨_, rfl⟩ := hs
      exact ⟨h.waitq, hset _ t .user rfl (by simp)⟩
  | fork p t =>
      obtain ⟨_, _, rfl⟩ := hs
      exact ⟨h.waitq, hset _ t .user rfl (by simp)⟩
  | yield =>
      obtain ⟨_, _, hwaitq, _, hctl⟩ := Procs.schedule_frame hs.2
      exact ⟨hwaitq ▸ h.waitq, hctl ▸ h.ctl⟩
  | wake q =>
      subst hs
      refine ⟨fun q' => ?_, h.ctl⟩
      rcases eq_or_ne q' q with rfl | hne
      · simp [Procs.wake]
      · simpa [Procs.wake, hne] using h.waitq q'
  | kill t bits =>
      subst hs
      unfold Procs.kill
      dsimp only
      split <;> exact ⟨h.waitq, h.ctl⟩
  | unlink t =>
      obtain ⟨_, rfl⟩ := hs
      exact ⟨fun q => by simp [Procs.unlink, h.waitq q], h.ctl⟩
  | done t =>
      obtain ⟨_, rfl⟩ := hs
      exact ⟨h.waitq, hset _ t .user rfl (by simp)⟩
  | reap p c =>
      obtain ⟨_, _, _, rfl⟩ := hs
      exact ⟨h.waitq, hset _ p .user rfl (by simp)⟩
  | sleep t call => exact absurd rfl (hsleep t call)
  | exit t p =>
      obtain ⟨_, _, hs⟩ := hs
      obtain ⟨_, _, hwaitq, _, hctl⟩ := Procs.schedule_frame hs
      refine ⟨fun q => ?_, hset _ t .dead (hctl.trans (Procs.ctl_die v t p)) (by simp)⟩
      rw [hwaitq, Procs.waitq_die]
      split
      · rfl
      · exact h.waitq q

/-- However many tasks have been started, nobody waits yet. -/
theorem quiet_of_startsUp (hk : schedMachine.Reaches (fun _ e => e.startsUp) k) : k.Quiet := by
  obtain ⟨v, hv, h⟩ := schedMachine_simulation
    (fun v a => v.Safe a ∧ ∀ t call, a ≠ .sleep t call) (fun _ _ ha => ha.1) (by
      intro k v v' e a _ _ he
      obtain ⟨hwoken, hresumes, hwaits⟩ := SchedEvent.startsUp_spec (k := k) he
      refine ⟨fun t ht => ?_, fun ha => ⟨ha.1, ?_⟩⟩
      · simp [hwoken] at ht
      · rintro t call rfl
        rcases ha.2.2 with ⟨hres, _⟩ | hwait
        · simp [hresumes] at hres
        · simp [hwaits] at hwait) hk
  have hidle : v.Idle := by
    apply hv.invariant
    · rintro _ rfl
      exact ⟨fun _ => rfl,
        by simp [Procs.boot, Procs.take, Procs.setCtl, Procs.setState, Procs.empty]⟩
    · exact fun v a v' hidle ha hs => hidle.step ha.2 hs
  refine ⟨?_, fun t => h.ctl t ▸ hidle.ctl t⟩
  rw [← funext hidle.waitq]
  exact h.linked

namespace ReaderEvent

def exec (k : Kernel) : ReaderEvent → Option Kernel
  | .read tty count => SchedEvent.byUser k fun t => some (k.waitBegin t (.ttyInput tty count))
  | .statement =>
      k.sched.current.bind fun t =>
        match k.ctl t with
        | .wait point call => (k.waitStep t call point).map Prod.fst
        | _ => none
  | .schedule => if k.sched.current.all fun t => k.ctl t = .user then k.schedule else none
  | .ttyInput tty c => k.ttyInputPut tty c

theorem step_of_exec {e : ReaderEvent} (h : e.exec k = some k') : e.Step k k' := by
  cases e with
  | read tty count =>
      obtain ⟨t, ht, hk⟩ := SchedEvent.byUser_eq_some h
      exact ⟨t, ht, (Option.some.inj hk).symm⟩
  | statement =>
      obtain ⟨t, hcur, h⟩ := Option.bind_eq_some_iff.mp h
      split at h
      · next point call hctl =>
          obtain ⟨r, hr⟩ := SchedEvent.step_of_map h
          exact ⟨t, point, call, r, hcur, hctl, hr⟩
      · cases h
  | schedule =>
      rw [exec] at h
      split at h
      · next huser => exact ⟨fun t ht => by simpa [ht] using huser, h⟩
      · cases h
  | ttyInput tty c => exact h

instance (k : Kernel) (tty : TtyRef) : Decidable (Deciding k tty) :=
  decidable_of_iff (k.sched.current.any fun t => match k.ctl t with
      | .wait .setState (.ttyInput tty' _) => tty' = tty
      | .wait .add (.ttyInput tty' _) => tty' = tty
      | _ => false) (by
    constructor
    · intro h
      obtain ⟨t, hcur, hat⟩ := (Option.any_eq_true ..).mp h
      refine ⟨t, ?_⟩
      split at hat
      · next tty' count hctl =>
          obtain rfl : tty' = tty := of_decide_eq_true hat
          exact ⟨count, hcur, .inl hctl⟩
      · next tty' count hctl =>
          obtain rfl : tty' = tty := of_decide_eq_true hat
          exact ⟨count, hcur, .inr hctl⟩
      · cases hat
    · rintro ⟨t, count, hcur, hctl | hctl⟩ <;> simp [hcur, hctl])

instance (k : Kernel) (e : ReaderEvent) : Decidable (e.InTime k) := by
  unfold InTime
  cases e <;> infer_instance

end ReaderEvent

/-- The state after `es`, from a shell that runs. -/
def afterReading (guard : Kernel → ReaderEvent → Prop) [∀ k e, Decidable (guard k e)]
    (es : List ReaderEvent) : Option Kernel :=
  (afterRun (fun _ e => e.startsUp)
    [.kernelExec (cstr "/bin/sh") 0 (some (0, 0)), .schedule]).bind
      (Machine.execAll (fun k e => e.exec k) guard es)

theorem reaches_afterReading {guard : Kernel → ReaderEvent → Prop} [∀ k e, Decidable (guard k e)]
    {es : List ReaderEvent} (h : afterReading guard es = some k) : readerMachine.Reaches guard k := by
  obtain ⟨k₀, hinit, hrun⟩ := Option.bind_eq_some_iff.mp h
  exact Machine.Reaches.execAll ReaderEvent.step_of_exec
    (.init (quiet_of_startsUp (reaches_afterRun hinit))) hrun

/-- The shell sleeps in its read, and a byte wakes it. -/
theorem noLostWakeup_inTime :
    ∃ k, afterReading (fun k e => e.InTime k) [.read 0 1, .statement, .statement, .statement,
      .ttyInput 0 97, .statement] = some k ∧ NoLostWakeup k := by
  obtain ⟨k, hk⟩ := Option.isSome_iff_exists.mp
    (show (afterReading (fun k e => e.InTime k) [.read 0 1, .statement, .statement, .statement,
      .ttyInput 0 97, .statement]).isSome by decide +kernel)
  exact ⟨k, hk, noLostWakeup_of_inTime (reaches_afterReading hk)⟩

/-- The byte comes behind the test, and the shell goes to sleep nevertheless. -/
theorem wakeup_lost : ¬ ∀ k, readerMachine.Reachable k → NoLostWakeup k := by
  intro hall
  have hrun : (afterReading (fun _ _ => True) [.read 0 1, .statement, .ttyInput 0 97, .statement,
      .statement, .statement]).map (fun k => (k.waits.queue 1, k.sched.current, k.runQueueTasks,
        (k.ttys 0).inHead, (k.ttys 0).inTail)) =
          some (some (.inWaitQueue 0), some 0, [], 1, 0) := by decide +kernel
  obtain ⟨k, hk, hstate⟩ := Option.map_eq_some_iff.mp hrun
  simp only [Prod.mk.injEq] at hstate
  obtain ⟨hqueue, hcur, hrunq, hhead, htail⟩ := hstate
  have hempty := hall k (reaches_afterReading hk) 0 1 hqueue (by simp [hcur]) (by simp [hrunq])
  rw [hhead, htail] at hempty
  cases hempty

end Punix
