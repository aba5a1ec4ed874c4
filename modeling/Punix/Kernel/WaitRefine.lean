import Punix.Kernel.CallsRefine
import Punix.Kernel.ProcsStep

/-!
The calls that sleep, on the lists of `Procs`. A round of `wait_event` is one
action: the call is done, or it reaps a child, or its task falls asleep. Where a
task continues inside of the round does not matter, so that the lists are given
up to the `ctl` of the task.
-/

namespace Punix

open Lib

/-- The zombie that a call reaps if its condition holds now. -/
def WaitCall.zombie (k : Kernel) (t : Slot) : WaitCall → Option Slot
  | ttyInput _ _ => none
  | childExit child _ => if (k.sched.task child).state = .zombie then some child else none
  | anyChild _ => (findZombieChild k.sched t).join

/-- The zombie that `sched_waitpid` reaps without waiting. -/
def waitpidZombie (k : Kernel) (t : Slot) (pid : Int) (options : BitVec 32) : Option Slot :=
  if options &&& ~~~wnohang ≠ 0 then none
  else if pid > 0 then
    (findChildByPid k.sched t pid).join.filter fun child => (k.sched.task child).state = .zombie
  else if pid = -1 then (findZombieChild k.sched t).join
  else none

/-- `sched_waitpid` finds nothing to reap and nothing to complain about. -/
def waitpidWaits (k : Kernel) (t : Slot) (pid : Int) (options : BitVec 32) : Bool :=
  options &&& ~~~wnohang = 0 ∧ options &&& wnohang = 0 ∧
    if pid > 0 then
      (findChildByPid k.sched t pid).join.any fun child => (k.sched.task child).state ≠ .zombie
    else pid = -1 ∧ (findZombieChild k.sched t).join = none ∧ (k.sched.task t).children.isSome

variable {k k' : Kernel} {v v' : Procs} {t p c : Slot} {call : WaitCall} {ctl : Ctl}

theorem Represents.resetCtl (h : Represents k (v.setCtl t ctl)) (ctl' : Ctl)
    (hentry : ∀ point call, ctl' = .wait point call → k.waits.task t = some t) :
    Represents (k.setCtl t ctl') (v.setCtl t ctl') := by
  have hset := h.setCtl t ctl' hentry
  simp only [Procs.setCtl, Function.update_idem] at hset
  exact hset

/-- Wait queues change for entries other than their owners' `task`. -/
theorem Represents.withWaits {waits : WaitHeap WaitQueueRef Slot Slot} (h : Represents k v)
    {waitq : WaitQueueRef → List Slot} (hlinked : waits.Linked waitq)
    (hentry : ∀ t, k.waits.task t = some t → waits.task t = some t) :
    Represents { k with waits } { v with waitq } where
  sched := ⟨⟨h.sched.current, h.sched.swapper, h.sched.state, h.sched.parent, h.sched.pending,
    h.sched.free, h.sched.kids⟩, ⟨h.sched.runq.chain, h.sched.runq.len, h.sched.runq.last⟩⟩
  ctl := h.ctl
  linked := hlinked
  entry t point call ht := hentry t (h.entry t point call ht)

theorem Represents.queue_none (h : Represents k v) (ht : ∀ q, t ∉ v.waitq q) :
    k.waits.queue t = none := by
  cases hq : k.waits.queue t with
  | none => rfl
  | some q => exact absurd ((h.linked.queue_iff t q).mp hq) (ht q)

theorem Represents.waitBegin (h : Represents k v) (ht : ∀ q, t ∉ v.waitq q) :
    Represents (k.waitBegin t call) (v.setCtl t (.wait .test call)) := by
  have hinit := h.withWaits (h.linked.entryInit (h.queue_none ht) t) (by
    intro u hu
    rcases eq_or_ne u t with rfl | hne
    · simp
    · simpa [hne] using hu)
  exact hinit.setCtl t _ fun _ _ _ => by simp

theorem Represents.unlink (h : Represents k v) (t : Slot) :
    Represents { k with waits := waitQueueRemove k.waits t } (v.unlink t) :=
  h.withWaits (h.linked.removeAny t) (by simp)

/-- The three statements that put a task to sleep. -/
theorem Represents.fallAsleep (h : Represents k (v.setCtl t ctl)) (hv : v.WF) (ht : v.Acts t)
    (hentry : k.waits.task t = some t)
    (hk : ((k.waitSetState t call).waitAdd t call).waitSchedule t call = some k') :
    ∃ v', (v.fallAsleep t call).schedule = some v' ∧ Represents k' v' := by
  have hset : Represents (k.modifyTask t fun task => { task with state := .interruptible })
      ((v.setState t .interruptible).setCtl t ctl) :=
    h.withSched (h.sched.setState t rfl rfl rfl rfl rfl rfl) rfl rfl
  have hstate : Represents (k.waitSetState t call) _ :=
    hset.resetCtl (.wait .add call) fun _ _ _ => hentry
  have hadd : Represents ((k.waitSetState t call).waitAdd t call) _ :=
    (hstate.withWaits (hstate.linked.add (hstate.queue_none ht.unlinked) (call.queue t))
      (by simp)).resetCtl (v := { v.setState t .interruptible with
        waitq := Function.update v.waitq (call.queue t) (v.waitq (call.queue t) ++ [t]) })
      (.wait .schedule call) fun _ _ _ => (congrFun (WaitHeap.task_waitQueueAdd ..) t).trans hentry
  have hasleep : Represents _ (v.fallAsleep t call) :=
    hadd.resetCtl (.wait .asleep call) fun _ _ _ =>
      (congrFun (WaitHeap.task_waitQueueAdd ..) t).trans hentry
  apply hasleep.schedule _ hk
  intro u hu hmem
  exact hv.run.notCurrent u hmem hu

/-- Reaping ends the call. -/
theorem Represents.reapDone {status : Bool} {r : CallResult} (h : Represents k (v.setCtl t ctl))
    (hv : v.WF) (hkid : c ∈ v.kids t) (hzombie : v.state c = .zombie)
    (hk : Punix.reap k t c status = some (k', r)) :
    Represents (k'.setCtl t .user) ((v.setCtl t .user).reap t c) := by
  have hreap := h.reap (p := t) (c := c) ⟨hv.tree.nodup, hv.tree.live, hv.tree.parent, hv.tree.pooled⟩
    ⟨hv.slot.nodup, hv.slot.pooled, hv.slot.swapper⟩ hkid (by simp [Procs.setCtl, hzombie]) hk
  exact Represents.resetCtl (v := v.reap t c) hreap .user (by simp)

/-- What a call may do, for the lists, when its condition holds: it is done, or
reaps the zombie it has found. -/
theorem Represents.finish {r : CallResult} (h : Represents k (v.setCtl t ctl)) (hv : v.WF)
    (ht : v.Acts t) (hcall : ∀ c status, call = .childExit c status → c ∈ v.kids t)
    (hcond : call.cond k t = some true) (hk : call.finish k t = some (k', r)) :
    ∃ a v', (a = .done t ∨ ∃ c, a = .reap t c ∧ call.zombie k t = some c) ∧ v.Step a v' ∧
      Represents (k'.setCtl t .user) v' := by
  cases call with
  | ttyInput tty count =>
      refine ⟨.done t, _, .inl rfl, ⟨ht, rfl⟩, ?_⟩
      obtain ⟨rfl, _⟩ := Prod.mk.inj (Option.some.inj hk)
      have htaken (ring : Tty) : Represents (k.setTty tty ring) (v.setCtl t ctl) :=
        h.congr rfl rfl rfl
      exact (htaken _).resetCtl .user (by simp)
  | childExit c status =>
      have hzombie : (k.sched.task c).state = .zombie := by simpa [WaitCall.cond] using hcond
      have hstate : v.state c = .zombie := (h.sched.state c).symm.trans hzombie
      have hkid := hcall c status rfl
      simp only [WaitCall.finish, hzombie, ne_eq, not_true_eq_false, if_false] at hk
      exact ⟨.reap t c, _, .inr ⟨c, rfl, by simp [WaitCall.zombie, hzombie]⟩,
        ⟨ht, hkid, hstate, rfl⟩, h.reapDone hv hkid hstate hk⟩
  | anyChild status =>
      have hfind := h.sched.findZombieChild t
      simp only [WaitCall.finish, hfind, Option.bind_eq_bind, Option.bind_some] at hk
      split at hk
      · next hnone => simp [WaitCall.cond, hfind, hnone] at hcond
      · next c hfound =>
          have hmem : c ∈ v.kids t := List.mem_of_find?_eq_some hfound
          have hstate : v.state c = .zombie := by
            have htest := List.find?_some hfound
            exact of_decide_eq_true htest
          exact ⟨.reap t c, _, .inr ⟨c, rfl, by simp [WaitCall.zombie, hfind, hfound]⟩,
            ⟨ht, hmem, hstate, rfl⟩, h.reapDone hv hmem hstate hk⟩

/-- One round of `wait_event` is one action: the call ends, or its task sleeps. -/
theorem Represents.waitRound {r : Option CallResult} (h : Represents k (v.setCtl t ctl))
    (hv : v.WF) (ht : v.Acts t) (hentry : k.waits.task t = some t)
    (hcall : ∀ c status, call = .childExit c status → c ∈ v.kids t)
    (hk : k.waitRound t call = some (k', r)) :
    ∃ a v', (a = .done t ∨ (∃ c, a = .reap t c ∧ call.zombie k t = some c) ∨
      a = .sleep t call ∧ call.cond k t = some false) ∧ v.Step a v' ∧ Represents k' v' := by
  unfold Kernel.waitRound Kernel.waitTest at hk
  cases hcond : call.cond k t with
  | none => simp [hcond] at hk
  | some holds =>
      cases holds with
      | true =>
          simp only [hcond, Option.bind_eq_bind, Option.bind_some, if_true] at hk
          cases hfinish : call.finish k t with
          | none => simp [hfinish] at hk
          | some outcome =>
              obtain ⟨k₁, result⟩ := outcome
              simp only [hfinish, Option.bind_some, Option.some.injEq, Prod.mk.injEq] at hk
              obtain ⟨rfl, _⟩ := hk
              obtain ⟨a, v', ha, hs, hrep⟩ := h.finish hv ht hcall hcond hfinish
              refine ⟨a, v', ?_, hs, hrep⟩
              rcases ha with ha | ha
              · exact .inl ha
              · exact .inr (.inl ha)
      | false =>
          simp only [hcond, Option.bind_eq_bind, Option.bind_some, Bool.false_eq_true,
            if_false] at hk
          obtain ⟨k₁, hsleep, hk⟩ := Option.map_eq_some_iff.mp hk
          obtain ⟨rfl, _⟩ := Prod.mk.inj hk
          have hset := h.resetCtl (.wait .setState call) fun _ _ _ => hentry
          obtain ⟨v', hs, hrep⟩ := hset.fallAsleep hv ht hentry hsleep
          refine ⟨.sleep t call, v', .inr (.inr ⟨rfl, rfl⟩), ⟨ht, ?_, ?_, hs⟩, hrep⟩
          · rintro c status rfl
            refine ⟨hcall c status rfl, ?_⟩
            rw [← show (k.sched.task c).state = v.state c from h.sched.state c]
            simpa [WaitCall.cond] using hcond
          · rintro status rfl c hc
            have hfind := h.sched.findZombieChild t
            simp only [WaitCall.cond, hfind, Option.map_some, Option.some_inj,
              Option.isSome_eq_false_iff, Option.isNone_iff_eq_none, List.find?_eq_none] at hcond
            exact fun hzombie => hcond c hc (decide_eq_true hzombie)

/-- A call of `wait_event` from user mode. -/
theorem Represents.waitEvent {r : Option CallResult} (h : Represents k v) (hv : v.WF)
    (ht : v.Acts t) (hcall : ∀ c status, call = .childExit c status → c ∈ v.kids t)
    (hk : k.waitEvent t call = some (k', r)) :
    ∃ a v', (a = .done t ∨ (∃ c, a = .reap t c ∧ call.zombie k t = some c) ∨
      a = .sleep t call ∧ call.cond k t = some false) ∧ v.Step a v' ∧ Represents k' v' :=
  (h.waitBegin ht.unlinked).waitRound hv ht (by simp [Kernel.waitBegin, Kernel.setCtl]) hcall hk

/-- The processor is back at a sleeper with no signal: after its entry has been
taken out of the queue the loop goes on. -/
theorem Represents.waitResume {r : Option CallResult} (h : Represents k v) (hv : v.WF)
    (hcur : v.current = some t) (hctl : v.ctl t = .wait .asleep call) (hpend : v.pending t = 0)
    (hk : k.waitResume t call = some (k', r)) :
    ∃ a v', (a = .done t ∨ (∃ c, a = .reap t c ∧ call.zombie k t = some c) ∨
      a = .sleep t call ∧ call.cond k t = some false) ∧ (v.unlink t).Step a v' ∧
        Represents k' v' := by
  unfold Kernel.waitResume Kernel.waitRemove at hk
  rw [h.sched.pending, hpend] at hk
  have hentry := h.entry t .asleep call hctl
  have hunlink := (h.unlink t).setCtl t (.wait .test call) fun _ _ _ => by simpa using hentry
  apply hunlink.waitRound (hv.unlink t) ⟨hcur, hv.notMem_unlink t⟩ (by simpa [Kernel.setCtl] using hentry)
  · rintro c status rfl
    exact hv.wait.childExit t c status hctl
  · simpa [h.sched.pending, hpend] using hk

theorem Procs.WakeSafe.unlink {q : WaitQueueRef} (h : v.WakeSafe q) (t : Slot) :
    (v.unlink t).WakeSafe q := fun u hu => h u (List.mem_of_mem_erase hu)

/-- A sleeper with a signal exits. -/
theorem Represents.waitKilled {r : Option CallResult} (h : Represents k v) (hv : v.WF)
    (hcur : v.current = some t) (hpend : v.pending t ≠ 0) (hexit : v.WakeSafe (.waitExit t))
    (hchild : ∀ p, v.parent t = some p → p ≠ t → v.WakeSafe (.waitChild p))
    (hk : k.waitResume t call = some (k', r)) :
    ∃ p v', (v.unlink t).Step (.exit t p) v' ∧ Represents k' v' := by
  unfold Kernel.waitResume Kernel.waitRemove at hk
  rw [h.sched.pending, if_pos hpend] at hk
  obtain ⟨k₁, hremove, hk⟩ := Option.map_eq_some_iff.mp hk
  obtain ⟨rfl, _⟩ := Prod.mk.inj hk
  dsimp only at hremove
  rw [h.sched.pending, if_pos hpend] at hremove
  obtain ⟨p, v', hpar, hs, hrep⟩ := (h.unlink t).exit (hv.unlink t) hcur (hexit.unlink t)
    (fun p hp hne => (hchild p hp hne).unlink t) hremove
  exact ⟨p, v', ⟨⟨hcur, hv.notMem_unlink t⟩, hpar, hs⟩, hrep⟩

/-- `sched_waitpid` answers at once, reaps a child, or sleeps. -/
theorem Represents.waitpid {pid : Int} {status : Bool} {options : BitVec 32}
    {r : Option CallResult} (h : Represents k v) (hv : v.WF) (ht : v.Acts t)
    (huser : v.ctl t = .user) (hk : k.schedWaitpid t pid status options = some (k', r)) :
    Represents k' v ∨ ∃ a v', (a = .done t ∨
      (∃ c, a = .reap t c ∧ waitpidZombie k t pid options = some c) ∨
      (∃ call, a = .sleep t call) ∧ waitpidWaits k t pid options) ∧
        v.Step a v' ∧ Represents k' v' := by
  have hstay : v.setCtl t .user = v := by
    rw [← huser, Procs.setCtl, Function.update_eq_self]
  have hsleep {call : WaitCall} (hnone : call.zombie k t = none)
      (hcall : ∀ c status, call = .childExit c status → c ∈ v.kids t)
      (hwaits : waitpidWaits k t pid options) (hk : k.waitEvent t call = some (k', r)) :
      ∃ a v', (a = .done t ∨ (∃ c, a = .reap t c ∧ waitpidZombie k t pid options = some c) ∨
        (∃ call, a = .sleep t call) ∧ waitpidWaits k t pid options) ∧
          v.Step a v' ∧ Represents k' v' := by
    obtain ⟨a, v', ha, hs, hrep⟩ := h.waitEvent hv ht hcall hk
    refine ⟨a, v', ?_, hs, hrep⟩
    rcases ha with rfl | ⟨c, _, hsome⟩ | ⟨rfl, _⟩
    · exact .inl rfl
    · rw [hnone] at hsome
      cases hsome
    · exact .inr (.inr ⟨⟨call, rfl⟩, hwaits⟩)
  cases Kernel.schedWaitpid_cases hk with
  | invalid _ hk _ | noChild _ _ hk _ | noHang _ _ _ hk _ => exact .inl (hk ▸ h)
  | reaps c result hvalid hfound hreap _ =>
      have hchild : c ∈ v.kids t ∧ v.state c = .zombie ∧ waitpidZombie k t pid options = some c := by
        rcases hfound with ⟨hpos, hfound, hzombie⟩ | ⟨hany, hfound⟩
        · refine ⟨h.sched.of_findChildByPid hfound, (h.sched.state c).symm.trans hzombie, ?_⟩
          simp [waitpidZombie, hvalid, hpos, hfound, hzombie]
        · obtain ⟨hkid, hstate⟩ := h.sched.of_findZombieChild hfound
          refine ⟨hkid, hstate, ?_⟩
          simp [waitpidZombie, hvalid, hany, hfound]
      obtain ⟨hkid, hstate, hsought⟩ := hchild
      refine .inr ⟨.reap t c, v.reap t c, .inr (.inl ⟨c, rfl, hsought⟩), ?_, ?_⟩
      · exact ⟨ht, hkid, hstate, by rw [hstay]⟩
      · exact h.reap hv.tree hv.slot hkid (by simp [hstate]) hreap
  | waitsFor c hvalid hhang hpos hfound hlive hwait =>
      refine .inr (hsleep (by simp [WaitCall.zombie, hlive]) ?_ ?_ hwait)
      · rintro _ _ heq
        cases heq
        exact h.sched.of_findChildByPid hfound
      · simp [waitpidWaits, hvalid, hhang, hpos, hfound, hlive]
  | waitsAny hvalid hhang hany hfound hsome hwait =>
      refine .inr (hsleep (by simp [WaitCall.zombie, hfound]) (by simp) ?_ hwait)
      simp [waitpidWaits, hvalid, hhang, hany, hfound, Option.isSome_iff_ne_none.mpr hsome]

end Punix
