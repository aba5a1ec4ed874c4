import Punix.Kernel.CallsRefine
import Punix.Kernel.Pids
import Punix.Kernel.SchedMachine

/-!
What `sched_waitpid` does to the children of its caller, and to nobody else. A call is
followed in parts: from its beginning, or from the return of `sched_schedule`, to its next
sleep or to its return. Between the parts other tasks exit, and whatever they do, they
leave the links between the children of the sleeper alone.
-/

namespace Punix

open Lib

/-- The task table and all lists of children are the same. -/
structure SameTree (s s' : Scheduler) : Prop extends SameTable s s' where
  parent : ∀ t, (s'.task t).parent = (s.task t).parent
  children : ∀ t, (s'.task t).children = (s.task t).children
  nextSibling : ∀ t, (s'.task t).nextSibling = (s.task t).nextSibling

namespace SameTree

variable {s s' s'' : Scheduler} {k k' : Kernel} {t : Slot}

theorem refl (s : Scheduler) : SameTree s s :=
  ⟨⟨rfl, rfl, rfl, fun _ => rfl, fun _ => rfl⟩, fun _ => rfl, fun _ => rfl, fun _ => rfl⟩

theorem trans (h : SameTree s s') (h' : SameTree s' s'') : SameTree s s'' where
  ring := h'.ring.trans h.ring
  head := h'.head.trans h.head
  tail := h'.tail.trans h.tail
  generation t := (h'.generation t).trans (h.generation t)
  pid t := (h'.pid t).trans (h.pid t)
  parent t := (h'.parent t).trans (h.parent t)
  children t := (h'.children t).trans (h.children t)
  nextSibling t := (h'.nextSibling t).trans (h.nextSibling t)

/-- Fields that are neither pids nor links are written. -/
theorem modifyTask (s : Scheduler) (t : Slot) {f : Task → Task}
    (hpid : (f (s.task t)).pid = (s.task t).pid)
    (hparent : (f (s.task t)).parent = (s.task t).parent)
    (hchildren : (f (s.task t)).children = (s.task t).children)
    (hsibling : (f (s.task t)).nextSibling = (s.task t).nextSibling) :
    SameTree s (s.modifyTask t f) where
  toSameTable := s.sameTable_modifyTask t hpid
  parent := s.field_modifyTask_same t Task.parent hparent
  children := s.field_modifyTask_same t Task.children hchildren
  nextSibling := s.field_modifyTask_same t Task.nextSibling hsibling

/-- Only the task table counts. -/
theorem of_table (h : SameTree s s') (htable : s''.taskTable = s'.taskTable) : SameTree s s'' := by
  have htask (t : Slot) : s''.task t = s'.task t := congrArg (fun table => (table.slots t).task) htable
  refine ⟨⟨?_, ?_, ?_, fun t => ?_, fun t => ?_⟩, fun t => ?_, fun t => ?_, fun t => ?_⟩
  · rw [htable, h.ring]
  · rw [htable, h.head]
  · rw [htable, h.tail]
  · rw [htable, h.generation]
  · rw [htask, h.pid]
  · rw [htask, h.parent]
  · rw [htask, h.children]
  · rw [htask, h.nextSibling]

theorem runQueuePush (h : Punix.runQueuePush s t = some s') : SameTree s s' := by
  have hfirst := modifyTask s t (f := fun task => { task with next := none }) rfl rfl rfl rfl
  unfold Punix.runQueuePush at h
  dsimp only at h
  split at h
  · exact Option.some.inj h ▸ hfirst.of_table rfl
  · split at h
    · cases h
    · next last _ =>
        have hlast := modifyTask (s.modifyTask t fun task => { task with next := none }) last
          (f := fun task => { task with next := some t }) rfl rfl rfl rfl
        exact Option.some.inj h ▸ (hfirst.trans hlast).of_table rfl

theorem runQueuePoll {polled : Option Slot} (h : Punix.runQueuePoll s = some (s', polled)) :
    SameTree s s' := by
  unfold Punix.runQueuePoll at h
  dsimp only at h
  split at h
  · exact (Prod.mk.inj (Option.some.inj h)).1 ▸ refl s
  · split at h
    · cases h
    · next t _ =>
        obtain ⟨rfl, _⟩ := Prod.mk.inj (Option.some.inj h)
        exact (modifyTask s t (f := fun task => { task with next := none }) rfl rfl rfl rfl).of_table
          rfl

theorem switchTo (s : Scheduler) (next : Slot) : SameTree s (Punix.switchTo s next) := by
  have hset := modifyTask s next (f := fun task => { task with state := .running }) rfl rfl rfl rfl
  exact hset.of_table rfl

/-- A context switch writes links of the run queue, states and counters. -/
theorem schedSchedule (h : Punix.schedSchedule s = some s') : SameTree s s' := by
  obtain ⟨⟨s₁, polled⟩, hpoll, h⟩ := Option.bind_eq_some_iff.mp h
  obtain ⟨next, _, h⟩ := Option.bind_eq_some_iff.mp h
  have hpoll := runQueuePoll hpoll
  split at h
  · exact Option.some.inj h ▸ hpoll.trans (switchTo s₁ next)
  · next prev _ =>
      have hcount := hpoll.trans
        (modifyTask s₁ prev (f := fun task => { task with ctxt := task.ctxt + 1 }) rfl rfl rfl rfl)
      dsimp only at h
      split at h
      · exact Option.some.inj h ▸ hcount
      split at h
      · exact Option.some.inj h ▸ hcount.trans (switchTo _ next)
      · have hqueued := hcount.trans (modifyTask _ prev (f := fun task =>
          { task with state := .queued }) rfl rfl rfl rfl)
        split at h
        · obtain ⟨s₂, hpush, h⟩ := Option.bind_eq_some_iff.mp h
          exact Option.some.inj h ▸ (hqueued.trans (runQueuePush hpush)).trans (switchTo s₂ next)
        · exact Option.some.inj h ▸ hqueued.trans (switchTo _ next)

theorem schedule (h : k.schedule = some k') : SameTree k.sched k'.sched := by
  obtain ⟨sched, hs, rfl⟩ := Option.map_eq_some_iff.mp h
  exact schedSchedule hs

theorem wakeupLoop {fuel : Nat} {entry : Option Slot} {waits waits' : WaitHeap WaitQueueRef Slot Slot}
    (h : Punix.wakeupLoop (fun s t => (Scheduler.task s t).sleeping) schedEnqueue fuel entry waits s =
      some (waits', s')) : SameTree s s' := by
  induction fuel generalizing entry waits s with
  | zero =>
      cases entry with
      | none => exact (Prod.mk.inj (Option.some.inj h)).2 ▸ refl s
      | some entry => cases h
  | succ fuel ih =>
      cases entry with
      | none => exact (Prod.mk.inj (Option.some.inj h)).2 ▸ refl s
      | some entry =>
          obtain ⟨s₁, hentry, hrest⟩ := Option.bind_eq_some_iff.mp h
          have hfirst : SameTree s s₁ := by
            unfold wakeEntry at hentry
            split at hentry
            · split at hentry
              · exact runQueuePush hentry
              · exact Option.some.inj hentry ▸ refl s
            · exact Option.some.inj hentry ▸ refl s
          exact hfirst.trans (ih hrest)

theorem wakeup {q : WaitQueueRef} (h : k.wakeup q = some k') : SameTree k.sched k'.sched := by
  obtain ⟨⟨waits, sched⟩, hloop, rfl⟩ := Option.map_eq_some_iff.mp h
  exact wakeupLoop hloop

/-- An exit makes a zombie, which stays in its list. -/
theorem schedExit {status : BitVec 32} (h : Punix.schedExit k status = some k') :
    SameTree k.sched k'.sched := by
  obtain ⟨t, _, h⟩ := Option.bind_eq_some_iff.mp h
  obtain ⟨k₁, hclose, h⟩ := Option.bind_eq_some_iff.mp h
  obtain ⟨k₂, hwake, h⟩ := Option.bind_eq_some_iff.mp h
  obtain ⟨p, _, h⟩ := Option.bind_eq_some_iff.mp h
  have hclosed : SameTree k.sched k₁.sched := (closeAllFiles_frame hclose).1 ▸ refl _
  have hzombie := modifyTask k₁.sched t
    (f := fun task => { task with exitStatus := status, state := .zombie }) rfl rfl rfl rfl
  have hfirst := (hclosed.trans hzombie).trans (wakeup hwake)
  have hlast {k₃ : Kernel} (h : (({ k₃ with sched := { k₃.sched with current := none } } :
      Kernel).setCtl t .dead).schedule = some k') : SameTree k₃.sched k'.sched := by
    have hnone : SameTree k₃.sched { k₃.sched with current := none } := (refl k₃.sched).of_table rfl
    exact hnone.trans (schedule h)
  split at h
  · obtain ⟨k₃, hparent, h⟩ := Option.bind_eq_some_iff.mp h
    exact (hfirst.trans (wakeup hparent)).trans (hlast h)
  · exact hfirst.trans (hlast h)

end SameTree

/-- The children of `t`, in the order of the list, with the pids of their slots. -/
structure ChildList (s : Scheduler) (t : Slot) (kids : List Slot) : Prop where
  chain : Chain (fun u => (s.task u).nextSibling) (s.task t).children kids
  notSelf : t ∉ kids
  pids : ∀ c ∈ kids, 0 < (s.task c).pid ∧ pidSlot (s.task c).pid = c

/-- The slot of `c` is free, and the list of children of `t` goes on without `c`; there are
no other changes. -/
structure Reaped (s : Scheduler) (t c : Slot) (kids : List Slot) (s' : Scheduler) : Prop where
  freed : s'.task c = { s.task c with
    pid := pidNone, state := .pooled, children := none, parent := none, nextSibling := none }
  ring : s'.taskTable.freeRing = Function.update s.taskTable.freeRing
    (Ring.maskIndex maxProcessCnt s.taskTable.freeTail) c
  tail : s'.taskTable.freeTail = s.taskTable.freeTail + 1
  head : s'.taskTable.freeHead = s.taskTable.freeHead
  generation : ∀ u, (s'.taskTable.slots u).generation = (s.taskTable.slots u).generation
  list : Chain (fun u => (s'.task u).nextSibling) (s'.task t).children (kids.erase c)
  others : ∀ u, u ≠ c → s'.task u = { s.task u with
    children := (s'.task u).children, nextSibling := (s'.task u).nextSibling }
  children : ∀ u, u ≠ c → u ≠ t → (s'.task u).children = (s.task u).children
  siblings : ∀ u, u ≠ c → u ∉ kids → (s'.task u).nextSibling = (s.task u).nextSibling

section Reap

variable {s s' : Scheduler} {t c : Slot} {kids : List Slot}

/-- `c` is out of the list of `t`, but not free yet. -/
structure Unlinked (s : Scheduler) (t c : Slot) (kids : List Slot) (s' : Scheduler) : Prop
    extends SameTable s s' where
  child : s'.task c = s.task c
  list : Chain (fun u => (s'.task u).nextSibling) (s'.task t).children (kids.erase c)
  others : ∀ u, s'.task u = { s.task u with
    children := (s'.task u).children, nextSibling := (s'.task u).nextSibling }
  children : ∀ u, u ≠ t → (s'.task u).children = (s.task u).children
  siblings : ∀ u, u ∉ kids → (s'.task u).nextSibling = (s.task u).nextSibling

theorem ChildList.unlink (h : ChildList s t kids) (hc : c ∈ kids) :
    ∃ s', unlinkChild s t c = some s' ∧ Unlinked s t c kids s' := by
  have hct : c ≠ t := fun heq => h.notSelf (heq ▸ hc)
  rcases unlinkChild_cases h.chain hc with ⟨after, rfl, hunlink⟩ |
    ⟨front, node, after, rfl, hunlink⟩
  · refine ⟨_, hunlink, s.sameTable_modifyTask t rfl, ?_, ?_, ?_, ?_, ?_⟩
    · exact s.task_modifyTask_of_ne t c _ hct
    · rw [List.erase_cons_head, Scheduler.task_modifyTask_self]
      exact h.chain.2.congr fun u _ => s.field_modifyTask_same t Task.nextSibling rfl u
    · intro u
      rw [Scheduler.task_modifyTask]
      split
      · next heq => rw [heq]
      · rfl
    · intro u hu
      rw [s.task_modifyTask_of_ne t u _ hu]
    · intro u _
      exact s.field_modifyTask_same t Task.nextSibling rfl u
  · have hnodup := h.chain.nodup
    have hcn : c ≠ node := by
      rintro rfl
      rw [List.nodup_append] at hnodup
      simp at hnodup
    refine ⟨_, hunlink, s.sameTable_modifyTask node rfl, ?_, ?_, ?_, ?_, ?_⟩
    · exact s.task_modifyTask_of_ne node c _ hcn
    · rw [erase_inner hnodup, s.field_modifyTask node _ Task.nextSibling]
      have hchildren := s.field_modifyTask_same node
        (f := fun task => { task with nextSibling := (s.task c).nextSibling }) Task.children rfl t
      rw [hchildren]
      exact h.chain.remove_inner
    · intro u
      rw [Scheduler.task_modifyTask]
      split
      · next heq => rw [heq]
      · rfl
    · intro u _
      exact s.field_modifyTask_same node Task.children rfl u
    · intro u hu
      have hne : u ≠ node := fun heq => hu (by simp [heq])
      rw [s.task_modifyTask_of_ne node u _ hne]

/-- The slot that is freed gets to the end of the ring. -/
theorem Unlinked.free (h : Unlinked s t c kids s') {s'' : Scheduler} (hct : c ≠ t)
    (hc : c ∉ kids.erase c) (hfree : taskTableFree s' c = some s'') : Reaped s t c kids s'' := by
  have hfreed := taskTableFree_freed hfree
  refine ⟨?_, ?_, hfreed.tail.trans (congrArg (· + 1) h.tail), hfreed.head.trans h.head, ?_, ?_, ?_,
    ?_, ?_⟩
  · rw [hfreed.task, h.child]
  · rw [hfreed.ring, h.ring, h.tail]
  · exact fun u => (hfreed.generation u).trans (h.generation u)
  · rw [hfreed.others t hct.symm]
    apply h.list.congr
    intro u hu
    rw [hfreed.others u (ne_of_mem_of_not_mem hu hc)]
  · intro u hu
    rw [hfreed.others u hu]
    exact h.others u
  · intro u hu hut
    rw [hfreed.others u hu]
    exact h.children u hut
  · intro u hne hu
    rw [hfreed.others u hne]
    exact h.siblings u hu

/-- What `sched_waitpid` returns and stores for the zombie `c`. -/
def reapResult (s : Scheduler) (c : Slot) (status : Bool) : CallResult :=
  .waitpid (s.task c).pid (if status then some (s.task c).exitStatus else none)

theorem reap_reaped {k k' : Kernel} {status : Bool} {result : CallResult}
    (h : ChildList k.sched t kids) (hc : c ∈ kids) (hreap : reap k t c status = some (k', result)) :
    Reaped k.sched t c kids k'.sched ∧ result = reapResult k.sched c status := by
  have hct : c ≠ t := fun heq => h.notSelf (heq ▸ hc)
  obtain ⟨s', hunlink, hunlinked⟩ := h.unlink hc
  obtain ⟨s₁, hunlink', hreap⟩ := Option.bind_eq_some_iff.mp hreap
  obtain rfl := Option.some.inj (hunlink'.symm.trans hunlink)
  obtain ⟨s₂, hfree, hreap⟩ := Option.bind_eq_some_iff.mp hreap
  obtain ⟨rfl, rfl⟩ := Prod.mk.inj (Option.some.inj hreap)
  refine ⟨hunlinked.free hct h.chain.nodup.not_mem_erase hfree, ?_⟩
  rw [reapResult, hunlinked.child]

/-- A child list is told by the links and the pids. -/
theorem ChildList.congr (h : ChildList s t kids)
    (hchildren : (s'.task t).children = (s.task t).children)
    (hlinks : ∀ c ∈ kids, (s'.task c).nextSibling = (s.task c).nextSibling)
    (hpids : ∀ c ∈ kids, (s'.task c).pid = (s.task c).pid) : ChildList s' t kids where
  chain := by
    rw [hchildren]
    exact h.chain.congr hlinks
  notSelf := h.notSelf
  pids c hc := by
    rw [hpids c hc]
    exact h.pids c hc

theorem ChildList.same (h : ChildList s t kids) (hsame : SameTree s s') : ChildList s' t kids :=
  h.congr (hsame.children t) (fun c _ => hsame.nextSibling c) fun c _ => hsame.pid c

end Reap

/-- `c` is asked for. -/
def Asked (s : Scheduler) (pid : Int) (c : Slot) : Prop := pid = -1 ∨ (s.task c).pid = pid

/-- The call waits for what `sched_waitpid` was asked for. -/
def WaitCall.WaitsFor (s : Scheduler) (kids : List Slot) (pid : Int) (status : Bool) :
    WaitCall → Prop
  | .ttyInput _ _ => False
  | .childExit c st => c ∈ kids ∧ (s.task c).pid = pid ∧ st = status
  | .anyChild st => pid = -1 ∧ kids ≠ [] ∧ st = status

section Call

variable {k k' : Kernel} {t : Slot} {kids : List Slot} {pid : Int} {status : Bool}
variable {options : BitVec 32} {call : WaitCall} {r : Option CallResult}

/-- A zombie that was asked for is reaped, and its status is returned. -/
def ReapsOne (t : Slot) (kids : List Slot) (pid : Int) (status : Bool) (k k' : Kernel)
    (r : Option CallResult) : Prop :=
  ∃ c ∈ kids, Asked k.sched pid c ∧ (k.sched.task c).state = .zombie ∧
    Reaped k.sched t c kids k'.sched ∧ r = some (reapResult k.sched c status)

/-- The call sleeps, or has died in its sleep. -/
def SleepsOn (t : Slot) (kids : List Slot) (pid : Int) (status : Bool) (k k' : Kernel)
    (r : Option CallResult) : Prop :=
  SameTree k.sched k'.sched ∧ r = none ∧
    (k'.ctl t = .dead ∨ ∃ call : WaitCall, k'.ctl t = .wait .asleep call ∧
      call.WaitsFor k.sched kids pid status)

theorem ChildList.findChild (h : ChildList k.sched t kids) (test : Slot → Bool) :
    findChild k.sched test maxProcessCnt (k.sched.task t).children = some (kids.find? test) := by
  apply findChild_eq test h.chain
  simpa [Slot] using h.chain.nodup.length_le_card

section Found

variable {c d : Slot}

theorem ChildList.of_findChildByPid (h : ChildList k.sched t kids)
    (hfound : findChildByPid k.sched t pid = some (some c)) :
    c ∈ kids ∧ (k.sched.task c).pid = pid := by
  rw [findChildByPid, h.findChild, Option.some_inj] at hfound
  exact ⟨List.mem_of_find?_eq_some hfound, by simpa using List.find?_some hfound⟩

/-- A pid tells a child from the others. -/
theorem ChildList.asked_unique (h : ChildList k.sched t kids) (hpos : 0 < pid) (hc : c ∈ kids)
    (hsame : (k.sched.task c).pid = pid) (hd : d ∈ kids) (hasked : Asked k.sched pid d) : d = c := by
  rcases hasked with hany | hother
  · omega
  · rw [← (h.pids d hd).2, ← (h.pids c hc).2, hother, hsame]

theorem ChildList.not_asked (h : ChildList k.sched t kids) (hpos : 0 < pid)
    (hfound : findChildByPid k.sched t pid = some none) (hc : c ∈ kids) :
    ¬ Asked k.sched pid c := by
  rw [findChildByPid, h.findChild, Option.some_inj] at hfound
  rintro (hany | hsame)
  · omega
  · have hnot := List.find?_eq_none.mp hfound c hc
    exact hnot (decide_eq_true hsame)

theorem ChildList.of_findZombieChild (h : ChildList k.sched t kids)
    (hfound : findZombieChild k.sched t = some (some c)) :
    c ∈ kids ∧ (k.sched.task c).state = .zombie := by
  rw [findZombieChild, h.findChild, Option.some_inj] at hfound
  exact ⟨List.mem_of_find?_eq_some hfound, by simpa using List.find?_some hfound⟩

theorem ChildList.not_zombie (h : ChildList k.sched t kids)
    (hfound : findZombieChild k.sched t = some none) (hc : c ∈ kids) :
    (k.sched.task c).state ≠ .zombie := by
  rw [findZombieChild, h.findChild, Option.some_inj] at hfound
  simpa using List.find?_eq_none.mp hfound c hc

theorem ChildList.children_eq_none (h : ChildList k.sched t kids) :
    (k.sched.task t).children = none ↔ kids = [] := by
  rw [h.chain.head?_eq, List.head?_eq_none_iff]

end Found

theorem ReapsOne.of_reap {c : Slot} {result : CallResult} (h : ChildList k.sched t kids)
    (hc : c ∈ kids) (hasked : Asked k.sched pid c) (hzombie : (k.sched.task c).state = .zombie)
    (hreap : reap k t c status = some (k', result)) :
    ReapsOne t kids pid status k k' (some result) := by
  obtain ⟨hreaped, rfl⟩ := reap_reaped h hc hreap
  exact ⟨c, hc, hasked, hzombie, hreaped, rfl⟩

/-- The loop of `wait_event` is left only when there is a zombie to reap. -/
theorem waitTest_part (h : ChildList k.sched t kids) (hcall : call.WaitsFor k.sched kids pid status)
    (htest : k.waitTest t call = some (k', r)) :
    ReapsOne t kids pid status k k' r ∨
      k' = k.setCtl t (.wait .setState call) ∧ r = none := by
  obtain ⟨ready, hcond, htest⟩ := Option.bind_eq_some_iff.mp htest
  cases ready with
  | false =>
      obtain ⟨rfl, rfl⟩ := Prod.mk.inj (Option.some.inj htest)
      exact .inr ⟨rfl, rfl⟩
  | true =>
      obtain ⟨⟨k₁, result⟩, hfinish, htest⟩ := Option.bind_eq_some_iff.mp htest
      obtain ⟨rfl, rfl⟩ := Prod.mk.inj (Option.some.inj htest)
      left
      cases call with
      | ttyInput tty count => cases hcall
      | childExit c st =>
          obtain ⟨hc, hpid, rfl⟩ := hcall
          have hzombie : (k.sched.task c).state = .zombie := of_decide_eq_true (Option.some.inj hcond)
          rw [WaitCall.finish, if_neg (not_not.mpr hzombie)] at hfinish
          have hreaps := ReapsOne.of_reap h hc (.inr hpid) hzombie hfinish
          exact hreaps
      | anyChild st =>
          obtain ⟨hpid, _, rfl⟩ := hcall
          have hfind := h.findChild fun c => (k.sched.task c).state = .zombie
          rw [WaitCall.cond, findZombieChild, hfind] at hcond
          rw [WaitCall.finish, findZombieChild, hfind] at hfinish
          cases hfound : kids.find? fun c => (k.sched.task c).state = .zombie with
          | none =>
              rw [hfound] at hcond
              cases hcond
          | some c =>
              rw [hfound] at hfinish
              have hzombie := List.find?_some hfound
              have hreaps := ReapsOne.of_reap h (List.mem_of_find?_eq_some hfound) (.inl hpid)
                (of_decide_eq_true hzombie) hfinish
              exact hreaps

theorem ctl_schedule (h : k.schedule = some k') : k'.ctl = k.ctl := by
  obtain ⟨sched, _, rfl⟩ := Option.map_eq_some_iff.mp h
  rfl

theorem waitRound_part (h : ChildList k.sched t kids) (hcall : call.WaitsFor k.sched kids pid status)
    (hround : k.waitRound t call = some (k', r)) :
    ReapsOne t kids pid status k k' r ∨ SleepsOn t kids pid status k k' r := by
  obtain ⟨⟨k₁, r₁⟩, htest, hround⟩ := Option.bind_eq_some_iff.mp hround
  rcases waitTest_part h hcall htest with hreaps | ⟨rfl, rfl⟩
  · obtain ⟨c, hc, hasked, hzombie, hreaped, rfl⟩ := hreaps
    obtain ⟨rfl, rfl⟩ := Prod.mk.inj (Option.some.inj hround)
    exact .inl ⟨c, hc, hasked, hzombie, hreaped, rfl⟩
  · -- the state is written, and the processor handed over
    obtain ⟨k₂, hschedule, hround⟩ := Option.map_eq_some_iff.mp hround
    obtain ⟨rfl, rfl⟩ := Prod.mk.inj hround
    have hstate := SameTree.modifyTask k.sched t
      (f := fun task => { task with state := .interruptible }) rfl rfl rfl rfl
    refine .inr ⟨hstate.trans (SameTree.schedule hschedule), rfl, .inr ⟨call, ?_, hcall⟩⟩
    rw [ctl_schedule hschedule]
    exact Function.update_self ..

theorem waitEvent_part (h : ChildList k.sched t kids) (hcall : call.WaitsFor k.sched kids pid status)
    (hk : k.waitEvent t call = some (k', r)) :
    ReapsOne t kids pid status k k' r ∨ SleepsOn t kids pid status k k' r :=
  waitRound_part (k := k.waitBegin t call) h hcall hk

theorem ctl_wakeup {q : WaitQueueRef} (h : k.wakeup q = some k') : k'.ctl = k.ctl := by
  obtain ⟨_, _, rfl⟩ := Option.map_eq_some_iff.mp h
  rfl

/-- The task that exits is dead, and nobody else. -/
theorem ctl_schedExit {n : BitVec 32} {u : Slot} (hcur : k.sched.current = some u)
    (h : schedExit k n = some k') : k'.ctl = Function.update k.ctl u .dead := by
  obtain ⟨u', hcur', h⟩ := Option.bind_eq_some_iff.mp h
  obtain rfl := Option.some.inj (hcur.symm.trans hcur')
  obtain ⟨k₁, hclose, h⟩ := Option.bind_eq_some_iff.mp h
  obtain ⟨k₂, hwake, h⟩ := Option.bind_eq_some_iff.mp h
  obtain ⟨p, _, h⟩ := Option.bind_eq_some_iff.mp h
  have hctl : k₂.ctl = k.ctl := (ctl_wakeup hwake).trans (closeAllFiles_frame hclose).2.2.1
  have hlast {k₃ : Kernel} (hk₃ : k₃.ctl = k.ctl)
      (h : (({ k₃ with sched := { k₃.sched with current := none } } : Kernel).setCtl u
        .dead).schedule = some k') : k'.ctl = Function.update k.ctl u .dead := by
    rw [ctl_schedule h, ← hk₃]
    rfl
  split at h
  · obtain ⟨k₃, hparent, h⟩ := Option.bind_eq_some_iff.mp h
    exact hlast ((ctl_wakeup hparent).trans hctl) h
  · exact hlast hctl h

/-- A pending signal ends the task in its sleep. -/
theorem waitResume_part (h : ChildList k.sched t kids) (hcall : call.WaitsFor k.sched kids pid status)
    (hcur : k.sched.current = some t) (hk : k.waitResume t call = some (k', r)) :
    ReapsOne t kids pid status k k' r ∨ SleepsOn t kids pid status k k' r := by
  unfold Kernel.waitResume at hk
  split at hk
  · next hpending =>
      obtain ⟨k₁, hremove, hk⟩ := Option.map_eq_some_iff.mp hk
      obtain ⟨rfl, rfl⟩ := Prod.mk.inj hk
      rw [Kernel.waitRemove, if_pos hpending] at hremove
      have hdead : k₁.ctl = Function.update k.ctl t .dead :=
        ctl_schedExit (k := { k with waits := waitQueueRemove k.waits t }) hcur hremove
      have hsame := SameTree.schedExit hremove
      refine .inr ⟨hsame, rfl, .inl ?_⟩
      rw [hdead, Function.update_self]
  · next hpending =>
      rw [Kernel.waitRemove, if_neg hpending] at hk
      exact waitRound_part (k := ({ k with waits := waitQueueRemove k.waits t } : Kernel).setCtl t
        (.wait .test call)) h hcall hk

/-- The call returns at once, without a change. -/
def Answers (kids : List Slot) (pid : Int) (options : BitVec 32) (k k' : Kernel)
    (r : Option CallResult) : Prop :=
  k' = k ∧
    (r = some (.waitpid (-einval) none) ∧
        ¬ (options &&& ~~~wnohang = 0 ∧ (0 < pid ∨ pid = -1)) ∨
      r = some (.waitpid (-echild) none) ∧ (∀ c ∈ kids, ¬ Asked k.sched pid c) ∨
      r = some (.waitpid 0 none) ∧ options &&& wnohang ≠ 0 ∧
        (∃ c ∈ kids, Asked k.sched pid c) ∧
        ∀ c ∈ kids, Asked k.sched pid c → (k.sched.task c).state ≠ .zombie)

/-- The ways in which a call begins. -/
theorem schedWaitpid_part (h : ChildList k.sched t kids)
    (hk : k.schedWaitpid t pid status options = some (k', r)) :
    Answers kids pid options k k' r ∨ ReapsOne t kids pid status k k' r ∨
      SleepsOn t kids pid status k k' r ∧ ∃ c ∈ kids, Asked k.sched pid c := by
  cases Kernel.schedWaitpid_cases hk with
  | invalid hinvalid hk hr => exact .inl ⟨hk.symm, .inl ⟨hr, hinvalid⟩⟩
  | noChild _ hfound hk hr =>
      refine .inl ⟨hk.symm, .inr (.inl ⟨hr, fun c hc => ?_⟩)⟩
      rcases hfound with ⟨hpos, hfound⟩ | ⟨_, _, hnone⟩
      · exact h.not_asked hpos hfound hc
      · rw [h.children_eq_none.mp hnone] at hc
        cases hc
  | noHang _ hnohang hfound hk hr =>
      refine .inl ⟨hk.symm, .inr (.inr ⟨hr, hnohang, ?_⟩)⟩
      rcases hfound with ⟨hpos, c, hfound, hlive⟩ | ⟨hany, hfound, hsome⟩
      · obtain ⟨hc, hsame⟩ := h.of_findChildByPid hfound
        refine ⟨⟨c, hc, .inr hsame⟩, fun d hd hasked => ?_⟩
        rw [h.asked_unique hpos hc hsame hd hasked]
        exact hlive
      · obtain ⟨c, hc⟩ := List.exists_mem_of_ne_nil kids (mt h.children_eq_none.mpr hsome)
        exact ⟨⟨c, hc, .inl hany⟩, fun d hd _ => h.not_zombie hfound hd⟩
  | reaps c result _ hfound hreap hr =>
      have hchild : c ∈ kids ∧ Asked k.sched pid c ∧ (k.sched.task c).state = .zombie := by
        rcases hfound with ⟨_, hfound, hzombie⟩ | ⟨hany, hfound⟩
        · obtain ⟨hc, hsame⟩ := h.of_findChildByPid hfound
          exact ⟨hc, .inr hsame, hzombie⟩
        · obtain ⟨hc, hzombie⟩ := h.of_findZombieChild hfound
          exact ⟨hc, .inl hany, hzombie⟩
      obtain ⟨hc, hasked, hzombie⟩ := hchild
      rw [hr]
      exact .inr (.inl (ReapsOne.of_reap h hc hasked hzombie hreap))
  | waitsFor c _ _ _ hfound _ hwait =>
      obtain ⟨hc, hsame⟩ := h.of_findChildByPid hfound
      have hcall : (WaitCall.childExit c status).WaitsFor k.sched kids pid status :=
        ⟨hc, hsame, rfl⟩
      rcases waitEvent_part h hcall hwait with hreaps | hsleeps
      · exact .inr (.inl hreaps)
      · exact .inr (.inr ⟨hsleeps, c, hc, .inr hsame⟩)
  | waitsAny _ _ hany _ hsome hwait =>
      have hne : kids ≠ [] := mt h.children_eq_none.mpr hsome
      obtain ⟨c, hc⟩ := List.exists_mem_of_ne_nil kids hne
      have hcall : (WaitCall.anyChild status).WaitsFor k.sched kids pid status := ⟨hany, hne, rfl⟩
      rcases waitEvent_part h hcall hwait with hreaps | hsleeps
      · exact .inr (.inl hreaps)
      · exact .inr (.inr ⟨hsleeps, c, hc, .inl hany⟩)

end Call

/-- What may happen while `t` sleeps in its call: anything but a change of the list of its
children. -/
structure Meanwhile (t : Slot) (kids : List Slot) (k k' : Kernel) : Prop where
  ctl : k'.ctl t = k.ctl t
  children : (k'.sched.task t).children = (k.sched.task t).children
  links : ∀ c ∈ kids, (k'.sched.task c).nextSibling = (k.sched.task c).nextSibling
  pids : ∀ c ∈ kids, (k'.sched.task c).pid = (k.sched.task c).pid

namespace Meanwhile

variable {k k' k'' : Kernel} {t : Slot} {kids : List Slot}

theorem trans (h : Meanwhile t kids k k') (h' : Meanwhile t kids k' k'') :
    Meanwhile t kids k k'' where
  ctl := h'.ctl.trans h.ctl
  children := h'.children.trans h.children
  links c hc := (h'.links c hc).trans (h.links c hc)
  pids c hc := (h'.pids c hc).trans (h.pids c hc)

theorem of_same (hctl : k'.ctl t = k.ctl t) (h : SameTree k.sched k'.sched) :
    Meanwhile t kids k k' :=
  ⟨hctl, h.children t, fun c _ => h.nextSibling c, fun c _ => h.pid c⟩

/-- Other tasks exit while `t` sleeps. -/
theorem exit {n : BitVec 32} {u : Slot} (hcur : k.sched.current = some u) (hne : u ≠ t)
    (h : schedExit k n = some k') : Meanwhile t kids k k' := by
  apply of_same _ (SameTree.schedExit h)
  rw [ctl_schedExit hcur h, Function.update_of_ne hne.symm]

theorem schedule (h : k.schedule = some k') : Meanwhile t kids k k' :=
  of_same (congrFun (ctl_schedule h) t) (SameTree.schedule h)

end Meanwhile

/-- A part of a call of `sched_waitpid` by `t`, whose children are `kids`: from its begin,
or from the return of `sched_schedule` in it, to the next sleep or to the result. -/
inductive WaitpidPart (t : Slot) (pid : Int) (status : Bool) (options : BitVec 32)
    (kids : List Slot) : Kernel → Kernel → Option CallResult → Prop
  | call {k k' : Kernel} {r : Option CallResult} (h : ChildList k.sched t kids)
      (hk : k.schedWaitpid t pid status options = some (k', r)) :
      WaitpidPart t pid status options kids k k' r
  | resume {k k₁ k₂ k' : Kernel} {call : WaitCall} {r : Option CallResult}
      (h : WaitpidPart t pid status options kids k k₁ none) (hothers : Meanwhile t kids k₁ k₂)
      (hcur : k₂.sched.current = some t) (hctl : k₂.ctl t = .wait .asleep call)
      (hk : k₂.waitResume t call = some (k', r)) : WaitpidPart t pid status options kids k₂ k' r

/-- What a part of a call has done. -/
structure WaitpidOk (t : Slot) (pid : Int) (status : Bool) (options : BitVec 32)
    (kids : List Slot) (k k' : Kernel) (r : Option CallResult) : Prop where
  /-- A pid is the pid of a zombie that has been reaped. -/
  reaps : ∀ ret out, r = some (.waitpid ret out) → 0 < ret →
    ∃ c ∈ kids, (k.sched.task c).state = .zombie ∧ (k.sched.task c).pid = ret ∧
      (0 < pid → ret = pid) ∧ out = (if status then some (k.sched.task c).exitStatus else none) ∧
      Reaped k.sched t c kids k'.sched
  keeps : (∀ ret out, r = some (.waitpid ret out) → ret ≤ 0) → SameTree k.sched k'.sched
  noChild : 0 < pid ∨ pid = -1 → options = 0 ∨ options = wnohang →
    ((∃ out, r = some (.waitpid (-echild) out)) ↔ ∀ c ∈ kids, ¬ Asked k.sched pid c)
  noZombie : ∀ out, r = some (.waitpid 0 out) → options &&& wnohang ≠ 0 ∧
    (∃ c ∈ kids, Asked k.sched pid c) ∧
      ∀ c ∈ kids, Asked k.sched pid c → (k.sched.task c).state ≠ .zombie
  noSignal : ∀ out, r ≠ some (.waitpid (-eintr) out)

section Parts

variable {k k' : Kernel} {t : Slot} {pid : Int} {status : Bool} {options : BitVec 32}
variable {kids : List Slot} {r : Option CallResult}

theorem ReapsOne.ok (h : ChildList k.sched t kids) (hreaps : ReapsOne t kids pid status k k' r) :
    WaitpidOk t pid status options kids k k' r := by
  obtain ⟨c, hc, hasked, hzombie, hreaped, rfl⟩ := hreaps
  have hpos := (h.pids c hc).1
  have hret {ret : Int} {out : Option (BitVec 32)}
      (h : some (reapResult k.sched c status) = some (CallResult.waitpid ret out)) :
      ret = (k.sched.task c).pid ∧ out = if status then some (k.sched.task c).exitStatus else none := by
    obtain ⟨rfl, rfl⟩ := CallResult.waitpid.inj (Option.some.inj h)
    exact ⟨rfl, rfl⟩
  refine ⟨?_, ?_, ?_, ?_, ?_⟩
  · intro ret out hresult _
    obtain ⟨rfl, rfl⟩ := hret hresult
    refine ⟨c, hc, hzombie, rfl, fun hpid => ?_, rfl, hreaped⟩
    rcases hasked with hany | hsame
    · omega
    · exact hsame
  · intro hle
    have hnot := hle _ _ rfl
    omega
  · intro _ _
    constructor
    · rintro ⟨out, hresult⟩
      have hpid := (hret hresult).1
      simp only [echild] at hpid
      omega
    · intro hnone
      exact absurd hasked (hnone c hc)
  · intro out hresult
    have hpid := (hret hresult).1
    omega
  · intro out hresult
    have hpid := (hret hresult).1
    simp only [eintr] at hpid
    omega

theorem SleepsOn.ok (hsleeps : SleepsOn t kids pid status k k' r)
    (hasked : ∃ c ∈ kids, Asked k.sched pid c) : WaitpidOk t pid status options kids k k' r := by
  obtain ⟨hsame, rfl, -⟩ := hsleeps
  refine ⟨fun ret out h => (by cases h), fun _ => hsame, fun _ _ => ?_, fun out h => (by cases h),
    fun out h => (by cases h)⟩
  constructor
  · rintro ⟨out, h⟩
    cases h
  · intro hnone
    obtain ⟨c, hc, hasked⟩ := hasked
    exact absurd hasked (hnone c hc)

theorem WaitpidOk.of_answer {ret : Int} (hret : ret ≤ 0) (hsignal : ret ≠ -eintr)
    (hchild : 0 < pid ∨ pid = -1 → options = 0 ∨ options = wnohang →
      (ret = -echild ↔ ∀ c ∈ kids, ¬ Asked k.sched pid c))
    (hzombie : ret = 0 → options &&& wnohang ≠ 0 ∧ (∃ c ∈ kids, Asked k.sched pid c) ∧
      ∀ c ∈ kids, Asked k.sched pid c → (k.sched.task c).state ≠ .zombie) :
    WaitpidOk t pid status options kids k k (some (.waitpid ret none)) where
  reaps ret' out hresult hpos := by
    obtain ⟨rfl, _⟩ := CallResult.waitpid.inj (Option.some.inj hresult)
    omega
  keeps _ := .refl _
  noChild hpid hoptions := by
    rw [← hchild hpid hoptions]
    constructor
    · rintro ⟨out, hresult⟩
      exact (CallResult.waitpid.inj (Option.some.inj hresult)).1
    · rintro rfl
      exact ⟨none, rfl⟩
  noZombie out hresult := hzombie (CallResult.waitpid.inj (Option.some.inj hresult)).1
  noSignal out hresult := hsignal (CallResult.waitpid.inj (Option.some.inj hresult)).1

theorem Answers.ok (h : Answers kids pid options k k' r) :
    WaitpidOk t pid status options kids k k' r := by
  obtain ⟨rfl, ⟨rfl, hinvalid⟩ | ⟨rfl, hnone⟩ | ⟨rfl, hnohang, ⟨c, hc, hasked⟩, hlive⟩⟩ := h
  · apply WaitpidOk.of_answer (by decide) (by decide) _ fun hzero => absurd hzero (by decide)
    intro hpid hoptions
    apply absurd _ hinvalid
    refine ⟨?_, hpid⟩
    rcases hoptions with rfl | rfl
    · decide
    · decide
  · exact WaitpidOk.of_answer (by decide) (by decide) (fun _ _ => ⟨fun _ => hnone, fun _ => rfl⟩)
      fun hzero => absurd hzero (by decide)
  · apply WaitpidOk.of_answer (by decide) (by decide) _ fun _ => ⟨hnohang, ⟨c, hc, hasked⟩, hlive⟩
    intro _ _
    constructor
    · intro hechild
      exact absurd hechild (by decide)
    · intro hnone
      exact absurd hasked (hnone c hc)

theorem WaitCall.WaitsFor.congr {s s' : Scheduler} {call : WaitCall}
    (h : call.WaitsFor s kids pid status) (hpids : ∀ c ∈ kids, (s'.task c).pid = (s.task c).pid) :
    call.WaitsFor s' kids pid status := by
  cases call with
  | ttyInput tty count => exact h
  | childExit c st =>
      obtain ⟨hc, hsame, hstatus⟩ := h
      exact ⟨hc, (hpids c hc).trans hsame, hstatus⟩
  | anyChild st => exact h

theorem WaitCall.WaitsFor.exists_asked {s : Scheduler} {call : WaitCall}
    (h : call.WaitsFor s kids pid status) : ∃ c ∈ kids, Asked s pid c := by
  cases call with
  | ttyInput tty count => cases h
  | childExit c st => exact ⟨c, h.1, .inr h.2.1⟩
  | anyChild st =>
      obtain ⟨c, hc⟩ := List.exists_mem_of_ne_nil kids h.2.1
      exact ⟨c, hc, .inl h.1⟩

/-- Every part finds the children as the one before has left them. -/
theorem WaitpidPart.cases_of_part (h : WaitpidPart t pid status options kids k k' r) :
    ChildList k.sched t kids ∧ (Answers kids pid options k k' r ∨
      ReapsOne t kids pid status k k' r ∨
        SleepsOn t kids pid status k k' r ∧ ∃ c ∈ kids, Asked k.sched pid c) := by
  induction h with
  | call hlist hk => exact ⟨hlist, schedWaitpid_part hlist hk⟩
  | resume hpart hothers hcur hctl hk ih =>
      obtain ⟨hlist, ⟨_, hanswer⟩ | ⟨c, _, _, _, _, hresult⟩ | ⟨⟨hsame, _, hcall⟩, _⟩⟩ := ih
      · rcases hanswer with ⟨hresult, _⟩ | ⟨hresult, _⟩ | ⟨hresult, _⟩ <;> cases hresult
      · cases hresult
      · have hlist' := (hlist.same hsame).congr hothers.children hothers.links hothers.pids
        rw [← hothers.ctl, hctl] at hcall
        rcases hcall with hdead | ⟨call, heq, hwaits⟩
        · cases hdead
        · cases heq
          have hwaits' := (hwaits.congr fun c _ => hsame.pid c).congr hothers.pids
          refine ⟨hlist', .inr ?_⟩
          rcases waitResume_part hlist' hwaits' hcur hk with hreaps | hsleeps
          · exact .inl hreaps
          · exact .inr ⟨hsleeps, hwaits'.exists_asked⟩

theorem WaitpidPart.ok (h : WaitpidPart t pid status options kids k k' r) :
    WaitpidOk t pid status options kids k k' r := by
  obtain ⟨hlist, hanswers | hreaps | ⟨hsleeps, hasked⟩⟩ := h.cases_of_part
  · exact hanswers.ok
  · exact hreaps.ok hlist
  · exact hsleeps.ok hasked

/-- Room for one more free slot. -/
def RingHasRoom (s : Scheduler) : Prop :=
  s.taskTable.freeTail - s.taskTable.freeHead ≠ BitVec.ofNat 32 maxProcessCnt

theorem exists_reap {c : Slot} (h : ChildList k.sched t kids) (hroom : RingHasRoom k.sched)
    (hc : c ∈ kids) (status : Bool) : ∃ k' result, reap k t c status = some (k', result) := by
  obtain ⟨s', hunlink, hunlinked⟩ := h.unlink hc
  obtain ⟨hpos, hslot⟩ := h.pids c hc
  have hpid : (s'.task c).pid = (k.sched.task c).pid := hunlinked.pid c
  have hroom' : s'.taskTable.freeTail - s'.taskTable.freeHead ≠ BitVec.ofNat 32 maxProcessCnt := by
    rw [hunlinked.tail, hunlinked.head]
    exact hroom
  obtain ⟨s'', hfree⟩ := taskTableFree_isSome hroom' (hpid ▸ hpos.le) (hpid ▸ hslot)
  unfold reap
  rw [hunlink]
  simp only [Option.bind_eq_bind, Option.bind_some, hfree]
  exact ⟨_, _, rfl⟩

/-- Where nobody has to be waited for, the call returns. -/
theorem schedWaitpid_returns (h : ChildList k.sched t kids)
    (hpid : 0 < pid ∨ pid = -1) (hoptions : options = 0 ∨ options = wnohang)
    (hready : (∀ c ∈ kids, ¬ Asked k.sched pid c) ∨ RingHasRoom k.sched ∧
      ((∃ c ∈ kids, Asked k.sched pid c ∧ (k.sched.task c).state = .zombie) ∨ options = wnohang)) :
    ∃ k' result, k.schedWaitpid t pid status options = some (k', some result) := by
  have hvalid : ¬ options &&& ~~~wnohang ≠ 0 := by
    rcases hoptions with rfl | rfl
    · decide
    · decide
  have hreap {c : Slot} (hc : c ∈ kids) (hasked : Asked k.sched pid c) :
      ∃ k' result, ((reap k t c status).bind fun x => some (x.1, some x.2)) =
        some (k', some result) := by
    rcases hready with hnone | ⟨hroom, _⟩
    · exact absurd hasked (hnone c hc)
    · obtain ⟨k', result, hreap⟩ := exists_reap h hroom hc status
      exact ⟨k', result, by rw [hreap]; rfl⟩
  unfold Kernel.schedWaitpid
  dsimp only
  rw [if_neg hvalid]
  rcases hpid with hpos | rfl
  · rw [if_pos hpos, findChildByPid, h.findChild]
    cases hfound : kids.find? fun c => (k.sched.task c).pid = pid with
    | none => exact ⟨k, _, rfl⟩
    | some c =>
        have hc := List.mem_of_find?_eq_some hfound
        have hsame : (k.sched.task c).pid = pid := by simpa using List.find?_some hfound
        change ∃ k' result, (if (k.sched.task c).state = .zombie then _ else _) = _
        split
        · exact hreap hc (.inr hsame)
        next hlive =>
        split
        · exact ⟨k, _, rfl⟩
        next hwait =>
        exfalso
        rcases hready with hnone | ⟨_, ⟨d, hd, hasked, hzombie⟩ | rfl⟩
        · exact hnone c hc (.inr hsame)
        · exact hlive (h.asked_unique hpos hc hsame hd hasked ▸ hzombie)
        · exact hwait (by decide)
  · rw [if_neg (by decide), if_pos rfl, findZombieChild, h.findChild]
    cases hfound : kids.find? fun c => (k.sched.task c).state = .zombie with
    | some c => exact hreap (List.mem_of_find?_eq_some hfound) (.inl rfl)
    | none =>
        change ∃ k' result, (if (k.sched.task t).children.isNone then _ else _) = _
        rw [h.chain.head?_eq]
        cases kids with
        | nil => exact ⟨k, _, rfl⟩
        | cons c rest =>
            change ∃ k' result, (if options &&& wnohang ≠ 0 then _ else _) = _
            split
            · exact ⟨k, _, rfl⟩
            next hwait =>
            exfalso
            rcases hready with hnone | ⟨_, ⟨d, hd, _, hzombie⟩ | rfl⟩
            · exact hnone c List.mem_cons_self (.inl rfl)
            · have hlive := List.find?_eq_none.mp hfound d hd
              exact hlive (decide_eq_true hzombie)
            · exact hwait (by decide)

end Parts

/-- In every call, whoever exits while it sleeps, a pid is returned for a zombie that has
been reaped, `-ECHILD` just for want of children, and nothing is changed without a reaping;
and where nobody has to be waited for, the call returns. -/
theorem waitpid_ok (t : Slot) (pid : Int) (status : Bool) (options : BitVec 32)
    (kids : List Slot) :
    (∀ k k' r, WaitpidPart t pid status options kids k k' r →
      WaitpidOk t pid status options kids k k' r) ∧
    ∀ k : Kernel, ChildList k.sched t kids → 0 < pid ∨ pid = -1 →
      options = 0 ∨ options = wnohang →
      ((∀ c ∈ kids, ¬ Asked k.sched pid c) ∨ RingHasRoom k.sched ∧
        ((∃ c ∈ kids, Asked k.sched pid c ∧ (k.sched.task c).state = .zombie) ∨
          options = wnohang)) →
      ∃ k' result, k.schedWaitpid t pid status options = some (k', some result) :=
  ⟨fun _ _ _ => WaitpidPart.ok, fun _ => schedWaitpid_returns⟩

def CallResult.returns (ret : Int) (status : BitVec 32) : CallResult → Bool
  | .read _ => false
  | .waitpid ret' status' => ret' = ret ∧ status' = some status

/-- The shell has forked, and waits for its child, which exits with 3. -/
theorem waitpid_ok_child :
    (∃ k k' : Kernel, k.sched.current = some 1 ∧
      WaitpidOk 1 2 true 0 [2] k k' (some (.waitpid 2 (some 3)))) ∧
    ∃ (k k' : Kernel) (result : CallResult), ChildList k.sched 1 [2] ∧
      k.schedWaitpid 1 (-1) true wnohang = some (k', some result) := by
  obtain ⟨k, -, hrun⟩ := (Option.any_eq_true _ _).mp
    (show (afterRun (fun _ _ => True) [.kernelExec (cstr "/bin/sh") 0 (some (0, 0)), .schedule,
      .fork]).any (fun k =>
        ((k.sched.task 1).children = some 2 ∧ (k.sched.task 2).nextSibling = none ∧
          (k.sched.task 2).pid = 2 ∧
          k.sched.taskTable.freeTail - k.sched.taskTable.freeHead ≠ BitVec.ofNat 32 maxProcessCnt) ∧
        ((k.schedWaitpid 1 2 true 0).any fun x => x.2.isNone ∧ x.1.sched.current = some 2 ∧
          ((schedExit x.1 3).any fun k₂ => k₂.sched.current = some 1 ∧
            k₂.ctl 1 = .wait .asleep (.childExit 2 true) ∧
            ((k₂.waitResume 1 (.childExit 2 true)).any fun y =>
              y.2.any (CallResult.returns 2 3))))) by decide +kernel)
  obtain ⟨⟨hchildren, hsibling, hpid, hroom⟩, hcall⟩ := of_decide_eq_true hrun
  obtain ⟨⟨k₁, r⟩, hwait, hasleep⟩ := (Option.any_eq_true _ _).mp hcall
  obtain ⟨hnone, hcurrent, hexits⟩ := of_decide_eq_true hasleep
  obtain ⟨k₂, hexit, hawake⟩ := (Option.any_eq_true _ _).mp hexits
  obtain ⟨hcurrent₂, hctl, hreturn⟩ := of_decide_eq_true hawake
  obtain ⟨⟨k', result⟩, hresume, hret⟩ := (Option.any_eq_true _ _).mp hreturn
  obtain rfl : r = none := Option.isNone_iff_eq_none.mp hnone
  have hlist : ChildList k.sched 1 [2] := by
    refine ⟨⟨hchildren, hsibling⟩, by decide, fun c hc => ?_⟩
    obtain rfl := List.mem_singleton.mp hc
    rw [hpid]
    decide
  have hothers : Meanwhile 1 [2] k₁ k₂ := .exit hcurrent (by decide) hexit
  have hresult : result = some (.waitpid 2 (some 3)) := by
    obtain ⟨returned, rfl, hreturns⟩ := (Option.any_eq_true _ _).mp hret
    cases returned with
    | read bytes => cases hreturns
    | waitpid ret status =>
        obtain ⟨rfl, rfl⟩ := of_decide_eq_true hreturns
        rfl
  subst hresult
  have hpart := WaitpidPart.resume (.call hlist hwait) hothers hcurrent₂ hctl hresume
  refine ⟨⟨k₂, k', hcurrent₂, (waitpid_ok 1 2 true 0 [2]).1 k₂ k' _ hpart⟩, ?_⟩
  obtain ⟨k₃, result, hreturns⟩ := (waitpid_ok 1 (-1) true wnohang [2]).2 k hlist (.inr rfl)
    (.inr rfl) (.inr ⟨hroom, .inr rfl⟩)
  exact ⟨k, k₃, result, hlist, hreturns⟩

end Punix
