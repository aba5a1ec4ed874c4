import Punix.Kernel.Frames

/-!
The way of an exit code from `exit` through the zombie to the status that
`waitpid` stores, and to the decoding in `sh.c` and `time.c`. Only the exit of a
task makes a zombie or writes the status of one, so that the parent gets what
the child has passed to `exit`, whichever of the two comes first. The kernel
does not shift the code; the programs shift it back.
-/

namespace Punix

open Lib

/-- The task is no new zombie, and an old one keeps its status. -/
def Task.KeepsZombie (task task' : Task) : Prop :=
  task'.state = .zombie → task.state = .zombie ∧ task'.exitStatus = task.exitStatus

theorem frame_keepsZombie : Task.Frame Task.KeepsZombie where
  refl _ hc := ⟨hc, rfl⟩
  trans h h' hc := by
    obtain ⟨hc', hstatus'⟩ := h' hc
    obtain ⟨hc, hstatus⟩ := h hc'
    exact ⟨hc, hstatus'.trans hstatus⟩
  next _ _ hc := ⟨hc, rfl⟩
  children _ _ hc := ⟨hc, rfl⟩
  nextSibling _ _ hc := ⟨hc, rfl⟩
  ctxt _ _ hc := ⟨hc, rfl⟩
  pending _ _ hc := ⟨hc, rfl⟩
  state _ _ hne hc := absurd hc hne
  free _ hc := by cases hc

/-- A new task is no zombie. -/
theorem Creates.keepsZombies {k k' : Kernel} {t : Slot} {P : Task → Prop}
    (h : Creates Task.KeepsZombie k k' t P) (hP : ∀ task, P task → task.state ≠ .zombie) (c : Slot) :
    (k.sched.task c).KeepsZombie (k'.sched.task c) := by
  obtain ⟨_, ⟨task, hnew, hR⟩, hold⟩ := h
  rcases eq_or_ne c t with rfl | hne
  · exact fun hc => absurd (hR hc).1 (hP task hnew)
  · exact hold c hne

theorem pooled_ne_zombie {task old : Task} (h : task.pid = pidNone ∧ task.state = .pooled ∧
    task.brk = old.brk ∧ task.brkLimit = old.brkLimit) : task.state ≠ .zombie := by
  rw [h.2.1]
  exact nofun

theorem queued_ne_zombie {task : Task} {brk brkLimit : BitVec 32}
    (h : task.state = .queued ∧ task.brk = brk ∧ task.brkLimit = brkLimit) :
    task.state ≠ .zombie := by
  rw [h.1]
  exact nofun

theorem forked_ne_zombie {p : Slot} {parent task : Task} (h : ∃ old, task = forkTask p parent old) :
    task.state ≠ .zombie := by
  obtain ⟨old, rfl⟩ := h
  exact nofun

/-- The exit code that the last task in each slot has passed to `exit`. -/
abbrev ExitCodes := Slot → Option (BitVec 32)

/-- The exit codes after the step. -/
def SchedEvent.recordExit (k : Kernel) (e : SchedEvent) (codes : ExitCodes) : ExitCodes :=
  match e.exitCode k with
  | some (t, n) => Function.update codes t (some n)
  | none => codes

/-- The scheduler beside a record of what the tasks have passed to `exit`. -/
def exitMachine : Machine (Kernel × ExitCodes) SchedEvent where
  init s := schedMachine.init s.1 ∧ s.2 = fun _ => none
  step s e s' := schedMachine.step s.1 e s'.1 ∧ s'.2 = e.recordExit s.1 s.2

/-- The status of a zombie is the exit code that the task has passed. -/
def CodesKept (s : Kernel × ExitCodes) : Prop :=
  ∀ c, (s.1.sched.task c).state = .zombie → s.2 c = some (s.1.sched.task c).exitStatus

theorem CodesKept.of_keeps {k k' : Kernel} {codes : ExitCodes} (h : CodesKept (k, codes))
    (hkeep : ∀ c, (k.sched.task c).KeepsZombie (k'.sched.task c)) : CodesKept (k', codes) := by
  intro c hc
  obtain ⟨hold, hstatus⟩ := hkeep c hc
  exact (h c hold).trans (congrArg some hstatus.symm)

/-- A task exits. -/
theorem CodesKept.exit {k k' : Kernel} {codes : ExitCodes} {t : Slot} {status : BitVec 32}
    (h : CodesKept (k, codes))
    (hkeep : ∀ c, ((k.zombie t status).sched.task c).KeepsZombie (k'.sched.task c)) :
    CodesKept (k', Function.update codes t (some status)) := by
  intro c hc
  obtain ⟨hold, hstatus⟩ := hkeep c hc
  rw [hstatus]
  change Function.update codes t (some status) c = some _
  unfold Kernel.zombie Kernel.modifyTask at hold ⊢
  rcases eq_or_ne c t with rfl | hne
  · rw [Scheduler.task_modifyTask_self, Function.update_self]
  · rw [Scheduler.task_modifyTask_of_ne _ _ _ _ hne] at hold ⊢
    rw [Function.update_of_ne hne]
    exact h c hold

theorem CodesKept.step {s s' : Kernel × ExitCodes} {e : SchedEvent} (h : CodesKept s)
    (hs : exitMachine.step s e s') : CodesKept s' := by
  obtain ⟨k, codes⟩ := s
  obtain ⟨k', codes'⟩ := s'
  obtain ⟨hs, hcodes⟩ := hs
  dsimp only at hcodes
  subst hcodes
  change e.Step k k' at hs
  have hR := frame_keepsZombie
  rcases stepKind hR k.points_true (fun _ _ => trivial) hs with hk | hk | ⟨hcode, hkeep⟩ | ⟨hcode, hkeep⟩
  · rcases (KernelKeeps.schedKernelExec hR k.points_true (fun _ _ => trivial) hk).2 with
      rfl | ⟨t, hfailed⟩ | ⟨t, brk, brkLimit, _, hnew⟩
    · exact h
    · exact h.of_keeps (hfailed.keepsZombies fun _ => pooled_ne_zombie)
    · exact h.of_keeps (hnew.keepsZombies fun _ => queued_ne_zombie)
  · rcases KernelKeeps.schedFork hR k.points_true (fun _ _ => trivial) hk with
      ⟨rfl, _⟩ | ⟨_, p, t, _, hnew⟩
    · exact h
    · exact h.of_keeps (hnew.keepsZombies fun _ => forked_ne_zombie)
  · simpa only [SchedEvent.recordExit, hcode] using h.exit hkeep.task
  · simpa only [SchedEvent.recordExit, hcode] using h.of_keeps hkeep.task

theorem codesKept_schedInit {k : Kernel} {bins : List EmbeddedBin}
    {load : Option (BitVec 32 × BitVec 32)} (hk : schedInit bins load = some k)
    (codes : ExitCodes) : CodesKept (k, codes) := by
  obtain ⟨⟨k₁, r⟩, hexec, hk⟩ := Option.bind_eq_some_iff.mp hk
  obtain ⟨t, rfl, hk⟩ := Option.bind_eq_some_iff.mp hk
  obtain rfl := Option.some.inj hk
  rcases (KernelKeeps.taskKernelExec frame_keepsZombie (kernelInit bins).points_true hexec).2 with
    ⟨hr, _⟩ | ⟨hr, _⟩ | ⟨u, brk, brkLimit, _, _, hnew⟩
  · cases hr
  · cases hr
  · intro c hc
    cases (hnew.keepsZombies (fun _ => queued_ne_zombie) c hc).1

theorem codesKept_of_reachable {s : Kernel × ExitCodes} (h : exitMachine.Reachable s) :
    CodesKept s := by
  apply h.invariant
  · rintro ⟨k, codes⟩ ⟨⟨bins, load, hk⟩, _⟩
    exact codesKept_schedInit hk codes
  · exact fun s e s' hs _ => hs.step

section Result

variable {k k' : Kernel} {t p c : Slot} {ret : Int} {n : BitVec 32}

/-- `c` has ended, and these are its pid and its status. -/
structure Ended (k : Kernel) (c : Slot) (ret : Int) (n : BitVec 32) : Prop where
  zombie : (k.sched.task c).state = .zombie
  pid : (k.sched.task c).pid = ret
  status : (k.sched.task c).exitStatus = n

theorem pid_unlinkSibling {s s' : Scheduler} {fuel : Nat} {node : Slot}
    (h : unlinkSibling s c fuel node = some s') (u : Slot) :
    (s'.task u).pid = (s.task u).pid := by
  induction fuel generalizing node with
  | zero => cases h
  | succ fuel ih =>
      rw [unlinkSibling] at h
      split at h
      · exact Option.some.inj h ▸ rfl
      split at h
      · rw [← Option.some.inj h, Scheduler.task_modifyTask]
        split <;> simp_all
      · exact ih h

theorem pid_unlinkChild {s s' : Scheduler} (h : unlinkChild s p c = some s') (u : Slot) :
    (s'.task u).pid = (s.task u).pid := by
  unfold unlinkChild at h
  split at h
  · exact Option.some.inj h ▸ rfl
  split at h
  · rw [← Option.some.inj h, Scheduler.task_modifyTask]
    split <;> simp_all
  · exact pid_unlinkSibling h u

theorem reap_ended {status : Bool} (hc : (k.sched.task c).state = .zombie)
    (h : reap k p c status = some (k', .waitpid ret (some n))) : Ended k c ret n := by
  obtain ⟨sched, hunlink, h⟩ := Option.bind_eq_some_iff.mp h
  obtain ⟨sched', _, h⟩ := Option.bind_eq_some_iff.mp h
  obtain ⟨hret, hstatus⟩ := CallResult.waitpid.inj (Prod.mk.inj (Option.some.inj h)).2
  refine ⟨hc, ?_, ?_⟩
  · rw [← hret, pid_unlinkChild hunlink]
  · cases status with
    | false => cases hstatus
    | true => exact Option.some.inj hstatus

theorem findChild_spec {s : Scheduler} {found : Slot → Bool} {fuel : Nat} {entry : Option Slot}
    (h : findChild s found fuel entry = some (some c)) : found c := by
  induction fuel generalizing entry with
  | zero => cases entry <;> cases h
  | succ fuel ih =>
      cases entry with
      | none => cases h
      | some child =>
          rw [findChild] at h
          split at h
          · next hfound => exact Option.some.inj (Option.some.inj h) ▸ hfound
          · exact ih h

theorem findZombieChild_zombie {s : Scheduler} (h : findZombieChild s p = some (some c)) :
    (s.task c).state = .zombie := of_decide_eq_true (findChild_spec h)

theorem finish_ended {call : WaitCall}
    (h : call.finish k t = some (k', .waitpid ret (some n))) : ∃ c, Ended k c ret n := by
  cases call with
  | ttyInput tty count => cases (Prod.mk.inj (Option.some.inj h)).2
  | childExit child status =>
      rw [WaitCall.finish] at h
      split at h
      · cases (Prod.mk.inj (Option.some.inj h)).2
      · next hzombie => exact ⟨child, reap_ended (not_not.mp hzombie) h⟩
  | anyChild status =>
      obtain ⟨found, hfound, h⟩ := Option.bind_eq_some_iff.mp h
      cases found with
      | none => cases (Prod.mk.inj (Option.some.inj h)).2
      | some child => exact ⟨child, reap_ended (findZombieChild_zombie hfound) h⟩

theorem waitRound_ended {call : WaitCall}
    (h : k.waitRound t call = some (k', some (.waitpid ret (some n)))) : ∃ c, Ended k c ret n := by
  obtain ⟨⟨k₁, result⟩, htest, h⟩ := Option.bind_eq_some_iff.mp h
  cases result with
  | none =>
      obtain ⟨_, _, h⟩ := Option.map_eq_some_iff.mp h
      cases (Prod.mk.inj h).2
  | some result =>
      obtain ⟨_, rfl⟩ : k₁ = k' ∧ result = .waitpid ret (some n) := by simpa using h
      obtain ⟨ready, _, htest⟩ := Option.bind_eq_some_iff.mp htest
      dsimp only at htest
      split at htest
      · obtain ⟨⟨k₂, result⟩, hfinish, htest⟩ := Option.bind_eq_some_iff.mp htest
        obtain rfl := Option.some.inj (Prod.mk.inj (Option.some.inj htest)).2
        exact finish_ended hfinish
      · cases (Prod.mk.inj (Option.some.inj htest)).2

theorem waitEvent_ended {call : WaitCall}
    (h : k.waitEvent t call = some (k', some (.waitpid ret (some n)))) : ∃ c, Ended k c ret n := by
  obtain ⟨c, hc⟩ : ∃ c, Ended (k.waitBegin t call) c ret n := waitRound_ended h
  exact ⟨c, hc.zombie, hc.pid, hc.status⟩

theorem schedWaitpid_ended {pid : Int} {status : Bool} {options : BitVec 32}
    (h : k.schedWaitpid t pid status options = some (k', some (.waitpid ret (some n)))) :
    ∃ c, Ended k c ret n := by
  cases Kernel.schedWaitpid_cases h with
  | invalid _ _ hr | noChild _ _ _ hr | noHang _ _ _ _ hr => cases hr
  | reaps c result _ hfound hreap hr =>
      obtain rfl := Option.some.inj hr
      have hzombie : (k.sched.task c).state = .zombie := by
        rcases hfound with ⟨_, _, hzombie⟩ | ⟨_, hfound⟩
        · exact hzombie
        · exact findZombieChild_zombie hfound
      exact ⟨c, reap_ended hzombie hreap⟩
  | waitsFor c _ _ _ _ _ hwait => exact waitEvent_ended hwait
  | waitsAny _ _ _ _ _ hwait => exact waitEvent_ended hwait

end Result

/-- The step is the return of a `waitpid` with this result, which stores this
status: at once, or behind the sleep of the caller. -/
def SchedEvent.WaitReturns (k : Kernel) (ret : Int) (status : BitVec 32) : SchedEvent → Prop
  | .waitpid pid true options => ∃ t k', k.AtUser t ∧
      k.schedWaitpid t pid true options = some (k', some (.waitpid ret (some status)))
  | .resume => ∃ t call k', k.sched.current = some t ∧ k.ctl t = .wait .asleep call ∧
      k.waitResume t call = some (k', some (.waitpid ret (some status)))
  | _ => False

theorem waitReturns_ended {k : Kernel} {e : SchedEvent} {ret : Int} {status : BitVec 32}
    (h : e.WaitReturns k ret status) : ∃ c, Ended k c ret status := by
  cases e with
  | waitpid pid stored options =>
      cases stored with
      | false => cases h
      | true =>
          obtain ⟨t, k', _, hk⟩ := h
          exact schedWaitpid_ended hk
  | resume =>
      obtain ⟨t, call, k', _, _, hk⟩ := h
      rw [Kernel.waitResume] at hk
      split at hk
      · obtain ⟨_, _, hk⟩ := Option.map_eq_some_iff.mp hk
        cases (Prod.mk.inj hk).2
      · next hpend =>
          rw [Kernel.waitRemove, if_neg hpend] at hk
          obtain ⟨c, hc⟩ := waitRound_ended hk
          exact ⟨c, hc.zombie, hc.pid, hc.status⟩
  | kernelExec | fork | schedule | exit | kill | ttyRead | wakeup | ttyInput | outside => cases h

/-- `(status >> 8) & 0xff`, in `sh.c` and in `time.c`. -/
def decodeStatus (status : BitVec 32) : BitVec 32 := status.sshiftRight 8 &&& 0xff

theorem and_ff (n : BitVec 32) : n &&& 0xff = (n.setWidth 8).setWidth 32 := by
  apply BitVec.eq_of_toNat_eq
  have hmask := Nat.and_two_pow_sub_one_eq_mod n.toNat 8
  simp only [BitVec.toNat_and, BitVec.toNat_setWidth]
  have hlt : n.toNat % 2 ^ 8 < 2 ^ 32 := by omega
  rw [Nat.mod_eq_of_lt hlt, ← hmask]
  rfl

/-- The decoding reads the second byte, which is where no exit code is put. -/
theorem decodeStatus_eq (n : BitVec 32) : decodeStatus n = (n.extractLsb' 8 8).setWidth 32 := by
  rw [decodeStatus, and_ff]
  congr 1
  apply BitVec.eq_of_getLsbD_eq
  intro i hi
  have hlt : 8 + i < 32 := by omega
  have hlt' : i < 32 := by omega
  simp [BitVec.getElem_sshiftRight, hi, hlt, hlt']

theorem decodeStatus_eq_iff (n : BitVec 32) :
    decodeStatus n = n &&& 0xff ↔ n.extractLsb' 8 8 = n.extractLsb' 0 8 := by
  have hlow : n.extractLsb' 0 8 = n.setWidth 8 := by
    apply BitVec.eq_of_getLsbD_eq
    intro i hi
    simp [hi]
  rw [decodeStatus_eq, and_ff, hlow]
  constructor
  · intro h
    have hback := congrArg (BitVec.setWidth 8) h
    simpa using hback
  · exact fun h => congrArg _ h

/-- Whatever the order of the exit and the wait, `waitpid` stores the exit code of
the task whose pid it returns. -/
theorem waitReturns_exitCode {k : Kernel} {codes : ExitCodes} {e : SchedEvent} {ret : Int}
    {status : BitVec 32} (hk : exitMachine.Reachable (k, codes))
    (h : e.WaitReturns k ret status) : ∃ c, Ended k c ret status ∧ codes c = some status := by
  obtain ⟨c, hc⟩ := waitReturns_ended h
  refine ⟨c, hc, ?_⟩
  have hkept : codes c = some (k.sched.task c).exitStatus := codesKept_of_reachable hk c hc.zombie
  rw [hkept, hc.status]

/-- The programs decode the exit code that was passed exactly when its two low
bytes are equal. -/
theorem waitReturns_decoded_iff {k : Kernel} {codes : ExitCodes} {e : SchedEvent} {ret : Int}
    {status : BitVec 32} (hk : exitMachine.Reachable (k, codes))
    (h : e.WaitReturns k ret status) :
    ∃ c n, Ended k c ret status ∧ codes c = some n ∧
      (decodeStatus status = n &&& 0xff ↔ n.extractLsb' 8 8 = n.extractLsb' 0 8) := by
  obtain ⟨c, hc, hcode⟩ := waitReturns_exitCode hk h
  exact ⟨c, status, hc, hcode, decodeStatus_eq_iff status⟩

/-- The state after `es`, with the exit codes. -/
def afterExits (es : List SchedEvent) : Option (Kernel × ExitCodes) :=
  (schedInit shellBins (some (0, 0))).bind fun k =>
    Machine.execAll (fun s e => (e.exec s.1).map (·, e.recordExit s.1 s.2)) (fun _ _ => True) es
      (k, fun _ => none)

theorem reachable_afterExits {es : List SchedEvent} {s : Kernel × ExitCodes}
    (h : afterExits es = some s) : exitMachine.Reachable s := by
  obtain ⟨k₀, hinit, hrun⟩ := Option.bind_eq_some_iff.mp h
  have hstart : exitMachine.Reachable (k₀, fun _ => none) := .init ⟨⟨_, _, hinit⟩, rfl⟩
  refine Machine.Reaches.execAll ?_ hstart hrun
  intro s e s' hs
  obtain ⟨k', hk', rfl⟩ := Option.map_eq_some_iff.mp hs
  exact ⟨SchedEvent.step_of_exec hk', rfl⟩

/-- The shell has forked and waits for its child, the child exits with `status`,
and the shell has the processor again. -/
def childExits (status : BitVec 32) : List SchedEvent :=
  [.kernelExec (cstr "/bin/sh") 0 (some (0, 0)), .schedule, .fork, .waitpid 2 true 0, .exit status]

/-- What the sleeper that has the processor again gets from its `waitpid`. -/
def resumed (k : Kernel) : Option (Int × BitVec 32) :=
  k.sched.current.bind fun t =>
    match k.ctl t with
    | .wait .asleep call =>
        (k.waitResume t call).bind fun (_, result) =>
          match result with
          | some (.waitpid ret (some status)) => some (ret, status)
          | _ => none
    | _ => none

theorem waitReturns_resumed {k : Kernel} {ret : Int} {status : BitVec 32}
    (h : resumed k = some (ret, status)) : SchedEvent.resume.WaitReturns k ret status := by
  obtain ⟨t, ht, h⟩ := Option.bind_eq_some_iff.mp h
  split at h
  · next call hctl =>
      obtain ⟨⟨k', result⟩, hresume, h⟩ := Option.bind_eq_some_iff.mp h
      dsimp only at h
      split at h
      · obtain ⟨rfl, rfl⟩ := Prod.mk.inj (Option.some.inj h)
        exact ⟨t, call, k', ht, hctl, hresume⟩
      · cases h
  · cases h

/-- The exit code 257 has two equal bytes. -/
theorem waitReturns_decoded_twice :
    ∃ k codes, exitMachine.Reachable (k, codes) ∧
      SchedEvent.resume.WaitReturns k 2 257 ∧ ∃ c n, Ended k c 2 257 ∧ codes c = some n ∧
        (decodeStatus 257 = n &&& 0xff ↔ n.extractLsb' 8 8 = n.extractLsb' 0 8) := by
  obtain ⟨⟨k, codes⟩, hs, hresumed⟩ := (Option.any_eq_true _ _).mp
    (show (afterExits (childExits 257)).any (fun s => resumed s.1 = some (2, 257)) by
      decide +kernel)
  have hreach := reachable_afterExits hs
  have hreturns := waitReturns_resumed (of_decide_eq_true hresumed)
  exact ⟨k, codes, hreach, hreturns, waitReturns_decoded_iff hreach hreturns⟩

/-- The shell reads 0 as the exit code of a child that has passed 1. -/
theorem exitCode_lost :
    ∃ k codes, exitMachine.Reachable (k, codes) ∧ codes 2 = some 1 ∧
      (k.sched.task 2).pid = 2 ∧ SchedEvent.resume.WaitReturns k 2 1 ∧
      decodeStatus 1 = 0 ∧ decodeStatus 1 ≠ 1 &&& 0xff := by
  obtain ⟨⟨k, codes⟩, hs, hresumed⟩ := (Option.any_eq_true _ _).mp
    (show (afterExits (childExits 1)).any (fun s => resumed s.1 = some (2, 1) ∧
      s.2 2 = some 1 ∧ (s.1.sched.task 2).pid = 2) by decide +kernel)
  obtain ⟨hresumed, hcode, hpid⟩ := of_decide_eq_true hresumed
  exact ⟨k, codes, reachable_afterExits hs, hcode, hpid, waitReturns_resumed hresumed,
    by decide, by decide⟩

end Punix
