import Punix.Arch.TaskSwitches

/-!
What a task finds when it goes on, whatever has run in between: the registers, the stack and
the address space that it had when it left, whether it has been switched away, has made a
system call, has been forked, or has not run before.
-/

namespace Punix

open Lib Lib.X86 KernelLayout

namespace CtxEvent

/-- What is parked by `t` is taken, or given up. -/
def Unparks (t : Slot) : CtxEvent → Prop
  | .switch _ next _ => next = t
  | .drop u => u = t
  | _ => False

/-- What the program of `t` has on its stack is taken, given up, or replaced by that of another
program. -/
def EndsCall (t : Slot) : CtxEvent → Prop
  | .sysEnterReturn u => u = t
  | .sysReturn u => u = t
  | .trampoline u => u = t
  | .inherit _ c => c = t
  | .drop u => u = t
  | _ => False

end CtxEvent

namespace KernelLayout

variable {cfg : Config} {lay : KernelLayout cfg} {s s' s₁ s₂ s₃ : CtxState} {t u : Slot}
  {prev : Option Slot} {entry : Option (BitVec 32)} {f : ParkedStack} {g : StackWords} {e : CtxEvent}

/-- A task that does not run is not the one that leaves its stack. -/
theorem SwitchCall.leaveStack_parked {stack : List (BitVec 32)} {prevCtx : BitVec 32}
    (h : lay.SwitchCall s prev u entry stack prevCtx) (ht : s.parked t = some f) :
    leaveStack s.parked prev (parkedBySwitch s.cpu stack entry) t = some f := by
  cases prev with
  | none => exact ht
  | some p =>
      have hne : t ≠ p := by
        rintro rfl
        have hrun := (h.task t rfl).2.1
        rw [hrun] at ht
        cases ht
      exact (Function.update_of_ne hne _ _).trans ht

/-- Nothing but `Unparks` takes what is parked. -/
theorem parked_of_step (hstep : (ctxMachine lay).step s e s') (he : ¬ e.Unparks t)
    (ht : s.parked t = some f) : s'.parked t = some f := by
  cases e with
  | work =>
      obtain ⟨hparked, -⟩ := hstep
      rw [hparked, ht]
  | switch prev next entry =>
      obtain ⟨stack, prevCtx, g, hcall, -, -, rfl⟩ := hstep
      have hnext : t ≠ next := fun h => he h.symm
      exact (Function.update_of_ne hnext _ _).trans (hcall.leaveStack_parked ht)
  | forkReturn child =>
      obtain ⟨ret, hcall, rfl⟩ := hstep
      have hne : t ≠ child := by
        rintro rfl
        rw [hcall.fresh] at ht
        cases ht
      exact (Function.update_of_ne hne _ _).trans ht
  | trampoline v =>
      obtain ⟨ret, tr, entry, argc, argv, envc, envp, hcall, rfl⟩ := hstep
      have hne : t ≠ v := by
        rintro rfl
        rw [hcall.fresh] at ht
        cases ht
      exact (Function.update_of_ne hne _ _).trans ht
  | sysEnter v =>
      obtain ⟨ret, -, rfl⟩ := hstep
      exact ht
  | sysEnterReturn v =>
      obtain ⟨-, -, rfl⟩ := hstep
      exact ht
  | sysReturn v =>
      obtain ⟨-, -, rfl⟩ := hstep
      exact ht
  | inherit p c =>
      obtain ⟨g, -, hparked, -⟩ := hstep
      rw [hparked, ht]
  | drop v =>
      obtain rfl := hstep
      exact (Function.update_of_ne (fun h => he h.symm) _ _).trans ht

/-- Nothing but `EndsCall` takes what the program has on its stack. -/
theorem entered_of_step (hstep : (ctxMachine lay).step s e s') (he : ¬ e.EndsCall t)
    (ht : s.entered t = some g) : s'.entered t = some g := by
  cases e with
  | work =>
      obtain ⟨-, hentered, -⟩ := hstep
      rw [hentered, ht]
  | switch prev next entry =>
      obtain ⟨stack, prevCtx, f, -, -, -, rfl⟩ := hstep
      exact ht
  | forkReturn child =>
      obtain ⟨ret, -, rfl⟩ := hstep
      exact ht
  | trampoline v =>
      obtain ⟨ret, tr, entry, argc, argv, envc, envp, -, rfl⟩ := hstep
      exact (Function.update_of_ne (fun h => he h.symm) _ _).trans ht
  | sysEnter v =>
      obtain ⟨ret, hcall, rfl⟩ := hstep
      have hne : t ≠ v := by
        rintro rfl
        rw [hcall.outside] at ht
        cases ht
      exact (Function.update_of_ne hne _ _).trans ht
  | sysEnterReturn v =>
      obtain ⟨-, -, rfl⟩ := hstep
      exact (Function.update_of_ne (fun h => he h.symm) _ _).trans ht
  | sysReturn v =>
      obtain ⟨-, -, rfl⟩ := hstep
      exact (Function.update_of_ne (fun h => he h.symm) _ _).trans ht
  | inherit p c =>
      obtain ⟨g', -, -, hentered⟩ := hstep
      rw [hentered]
      exact (Function.update_of_ne (fun h => he h.symm) _ _).trans ht
  | drop v =>
      obtain rfl := hstep
      exact (Function.update_of_ne (fun h => he h.symm) _ _).trans ht

theorem parked_of_runs {guard : CtxState → CtxEvent → Prop}
    (hguard : ∀ s e, guard s e → ¬ e.Unparks t) (hrun : (ctxMachine lay).Runs guard s s')
    (ht : s.parked t = some f) : s'.parked t = some f := by
  induction hrun with
  | refl => exact ht
  | tail _ he hstep ih => exact parked_of_step hstep (hguard _ _ he) ih

theorem entered_of_runs {guard : CtxState → CtxEvent → Prop}
    (hguard : ∀ s e, guard s e → ¬ e.EndsCall t) (hrun : (ctxMachine lay).Runs guard s s')
    (ht : s.entered t = some g) : s'.entered t = some g := by
  induction hrun with
  | refl => exact ht
  | tail _ he hstep ih => exact entered_of_step hstep (hguard _ _ he) ih

theorem reachable_step (hs : (ctxMachine lay).Reachable s) (hstep : (ctxMachine lay).step s e s') :
    (ctxMachine lay).Reachable s' :=
  hs.step trivial hstep

theorem reachable_runs {guard : CtxState → CtxEvent → Prop} (hs : (ctxMachine lay).Reachable s)
    (hrun : (ctxMachine lay).Runs guard s s') : (ctxMachine lay).Reachable s' :=
  hs.runs (hrun.mono fun _ _ _ => trivial)

/-- A switch to `t` takes what `t` has parked into the registers, and does not change it. -/
theorem switched_of_step (hs : (ctxMachine lay).Reachable s)
    (hback : (ctxMachine lay).step s (.switch prev t entry) s') (ht : s.parked t = some f) :
    ∃ stack prevCtx, Switched cfg s.cpu s'.cpu stack prevCtx (lay.pd t) f.sp f.words ∧
      lay.Saved s'.cpu.mem t f := by
  have hok := ok_of_reaches hs
  obtain ⟨stack, prevCtx, g, hcall, hg, hwords, rfl⟩ := hback
  obtain rfl : g = f := Option.some.inj (hg.symm.trans (hcall.leaveStack_parked ht))
  have hsw := hcall.switched hok hg hwords
  exact ⟨stack, prevCtx, hsw, hcall.saved_next hok hg hsw.left⟩

end KernelLayout

def sampleConfig : Config where
  split := 0x500000
  status := fun _ _ => 0

def samplePd (t : Slot) : BitVec 32 := BitVec.ofNat 32 (0x4000 + 0x8000 * t.val)

def sampleMm (t : Slot) : BitVec 32 := BitVec.ofNat 32 (0x900000 + 8 * t.val)

def sampleImpl (t : Slot) : BitVec 32 := BitVec.ofNat 32 (0xA00000 + 8 * t.val)

theorem samplePd_injective : Function.Injective samplePd := by
  intro t u h
  have hnat := congrArg BitVec.toNat h
  simp only [samplePd, BitVec.toNat_ofNat] at hnat
  have ht := t.isLt
  have hu := u.isLt
  simp only [maxProcessCnt] at ht hu
  apply Fin.ext
  omega

/-- The structures of the kernel are in no other one. -/
theorem sample_outside :
    (8 ≤ 8 ∧ 8 + kernelStackSize ≤ 0x8000 ∧ sampleConfig.split.toNat ≤ 0x600000 ∧
      0x600000 + 0x8000 * maxProcessCnt ≤ 2 ^ 32) ∧
    (∀ t, sampleConfig.split.toNat ≤ (sampleMm t).toNat ∧ (sampleMm t).toNat + 4 ≤ 2 ^ 32 ∧
      ((sampleMm t).toNat + 4 ≤ 0x600000 ∨ 0x600000 + 0x8000 * maxProcessCnt ≤ (sampleMm t).toNat)) ∧
    (∀ t, sampleConfig.split.toNat ≤ (sampleImpl t + 4).toNat ∧
      (sampleImpl t + 4).toNat + 4 ≤ 2 ^ 32 ∧ ((sampleImpl t + 4).toNat + 4 ≤ 0x600000 ∨
        0x600000 + 0x8000 * maxProcessCnt ≤ (sampleImpl t + 4).toNat)) ∧
    sampleConfig.split.toNat ≤ (0x5F0000#32).toNat ∧ (0x5F0000#32).toNat + 4 ≤ 2 ^ 32 ∧
      ((0x5F0000#32).toNat + 4 ≤ 0x600000 ∨
        0x600000 + 0x8000 * maxProcessCnt ≤ (0x5F0000#32).toNat) := by
  decide

def sampleLayout : KernelLayout sampleConfig where
  slots := 0x600000
  slotSize := 0x8000
  kstackOff := 8
  mm := sampleMm
  impl := sampleImpl
  pd := samplePd
  sched := 0x5F0000
  sysReturnAddr := 0x501000
  trampolineAddr := 0x502000
  ctx_fits := sample_outside.1.1
  kstack_fits := sample_outside.1.2.1
  shared := sample_outside.1.2.2.1
  slots_fit := sample_outside.1.2.2.2
  pd_injective := samplePd_injective
  mm_outside := sample_outside.2.1
  impl_outside := sample_outside.2.2.1
  sched_outside := sample_outside.2.2.2

/-- Task 1 is the current one, and `k_sp` of each task is at the top of its stack. -/
def sampleWord (a : Nat) : BitVec 32 :=
  if 0xA00000 ≤ a then BitVec.ofNat 32 (0x4000 + 0x1000 * (a - 0xA00004))
  else if 0x900000 ≤ a then BitVec.ofNat 32 (a + 0x100000)
  else if a = 0x5F0000 then 0x608000
  else BitVec.ofNat 32 (a + 4 + kernelStackSize)

/-- The program of task 1 runs. -/
def sampleStart : CtxState where
  cpu :=
    { reg := fun r => if r = .esp then 0x4F0000 else 0
      eip := 0
      eflags := 0x202
      cr3 := samplePd 1
      mem := fun a => Memory.byteOf (sampleWord (a.toNat - a.toNat % 4)) (a.toNat % 4)
      spaces := fun _ _ => 0 }
  parked := fun _ => none
  entered := fun _ => none

theorem sampleStart_reachable : (ctxMachine sampleLayout).Reachable sampleStart := by
  apply Machine.Reaches.init
  refine ⟨rfl, rfl, ?_⟩
  decide +kernel

/-- Words get onto a stack. -/
def CtxState.pushing (s : CtxState) (top : BitVec 32) (xs : List (BitVec 32)) : CtxState :=
  { s with cpu := { s.cpu with
      reg := Function.update s.cpu.reg .esp (top - BitVec.ofNat 32 (4 * xs.length))
      mem := s.cpu.mem.pushes top xs } }

section Samples

variable {cfg : Config} {lay : KernelLayout cfg} {s : CtxState} {t next : Slot}

theorem step_pushing {top : BitVec 32} {xs : List (BitVec 32)} (hs : lay.Ok s)
    (ht : s.parked t = none) (hroom : 4 * xs.length ≤ top.toNat)
    (hin : lay.InStack t (top.toNat - 4 * xs.length) (4 * xs.length)) :
    (ctxMachine lay).step s .work (s.pushing top xs) := by
  have hfree := free_stack hs ht hin
  have hshared := hfree.shared
  refine ⟨rfl, rfl, rfl, ?_⟩
  apply Keeps.of_shared hs
  · apply KeepsShared.of_free hs [(top.toNat - 4 * xs.length, 4 * xs.length)]
    · intro r hr
      obtain rfl := List.mem_singleton.mp hr
      exact hfree
    · intro b _ hout
      have hapart := hout _ List.mem_cons_self
      exact Memory.pushes_apart (by omega) hroom
  · intro u _ b hb
    change (if lay.pd u = s.cpu.cr3 then s.cpu.mem.pushes top xs else s.cpu.spaces (lay.pd u)) b =
      (if lay.pd u = s.cpu.cr3 then s.cpu.mem else s.cpu.spaces (lay.pd u)) b
    split
    · exact Memory.pushes_apart (by omega) hroom
    · rfl

/-- The arguments for a switch from `t` to `next`, and the address of the return. -/
def switchArgs (lay : KernelLayout cfg) (t next : Slot) : List (BitVec 32) :=
  [lay.mm next, lay.ctxAddr next, lay.ctxAddr t, 0]

/-- `t` calls `ctx_switch` in `s₁`, and `next` goes on in `s₂`. -/
structure SwitchesTo (lay : KernelLayout cfg) (s s₁ s₂ : CtxState) (t next : Slot)
    (entry : Option (BitVec 32)) : Prop where
  call : (ctxMachine lay).step s .work s₁
  switch : (ctxMachine lay).step s₁ (.switch (some t) next entry) s₂
  running : s₂.parked next = none
  left : ∃ f, s₂.parked t = some f ∧ 6 ≤ f.words.length ∧ f.entry = entry
  entered : s₂.entered = s.entered
  cr3 : s₂.cpu.cr3 = lay.pd next
  mem : ∀ b : BitVec 32, cfg.split.toNat ≤ b.toNat →
    b.toNat < lay.ctx t ∨ lay.stackTop t ≤ b.toNat → s₂.cpu.mem b = s.cpu.mem b

/-- `behind` is all that is on the stack of `t` before the arguments for `ctx_switch`. -/
theorem switch_pushing {f : ParkedStack} (entry : Option (BitVec 32)) (behind : List (BitVec 32))
    (hs : (ctxMachine lay).Reachable s) (ht : s.parked t = none) (hnext : s.parked next = some f)
    (hwords : 6 ≤ f.words.length) (htop : lay.stackTop t < 2 ^ 32) (hbehind : behind.length ≤ 4)
    (hentry : ∀ e, entry = some e →
      lay.stackTop t ≤ e.toNat + 4 * behind.length ∧ e.toNat + 16 ≤ lay.stackTop t) :
    ∃ s₁ s₂, SwitchesTo lay s s₁ s₂ t next entry := by
  have hinside := lay.stack_inside t
  have hsize : lay.stackTop t = lay.stackBase t + 16384 := rfl
  let top := BitVec.ofNat 32 (lay.stackTop t)
  have htop' : top.toNat = lay.stackTop t := by
    rw [BitVec.toNat_ofNat, Nat.mod_eq_of_lt htop]
  let xs := behind ++ switchArgs lay t next
  have hlength : xs.length = behind.length + 4 := List.length_append
  let s₁ := s.pushing top xs
  have hstep : (ctxMachine lay).step s .work s₁ := by
    apply step_pushing (ok_of_reaches hs) ht
    · omega
    · exact ⟨by omega, by omega⟩
  have hesp : (s₁.cpu.reg .esp).toNat = lay.stackTop t - 4 * xs.length := by
    rw [← htop']
    exact Memory.toNat_sub_words (by omega)
  have hreverse : xs.reverse =
      0 :: lay.ctxAddr t :: lay.ctxAddr next :: lay.mm next :: behind.reverse := by
    rw [List.reverse_append]
    rfl
  have hcall : lay.SwitchCall s₁ (some t) next entry xs.reverse (lay.ctxAddr t) := by
    refine ⟨?_, ⟨0, behind.reverse, hreverse⟩, by omega, ?_, fun e he => ?_, fun h => by cases h⟩
    · exact Memory.wordsAt_pushes s.cpu.mem (by omega)
    · rintro _ ⟨⟩
      rw [hesp, List.length_reverse]
      exact ⟨rfl, ht, by omega, by omega⟩
    · have hbounds := hentry e he
      rw [hesp, List.length_reverse]
      omega
  have hsw := hcall.switched (ok_of_reaches (reachable_step hs hstep))
    (hcall.leaveStack_parked hnext) hwords
  have hne : next ≠ t := by
    rintro rfl
    rw [ht] at hnext
    cases hnext
  refine ⟨s₁, _, hstep, ⟨_, _, f, hcall, hcall.leaveStack_parked hnext, hwords, rfl⟩,
    Function.update_self .., ⟨_, (Function.update_of_ne hne.symm _ _).trans (leaveStack_prev ..),
      ?_, rfl⟩, rfl, hsw.cr3, fun b hb hout => ?_⟩
  · change 6 ≤ ((switchFrame s₁.cpu).reverse ++ xs.reverse).length
    rw [length_switchFrame_append, List.length_reverse]
    omega
  · have hctx := lay.toNat_ctxAddr_add t
    refine (hsw.left.mem b hb ?_).trans (Memory.pushes_apart ?_ ?_)
    · unfold SwitchWrites
      omega
    · omega
    · omega

/-- A word of the shared memory is stored. -/
theorem step_setWord {a x : BitVec 32} (hs : lay.Ok s) (hfree : lay.Free s a.toNat 4) :
    (ctxMachine lay).step s .work { s with cpu := { s.cpu with mem := s.cpu.mem.setWord a x } } := by
  have hshared := hfree.shared
  have hfits := hfree.fits
  refine ⟨rfl, rfl, rfl, ?_⟩
  apply Keeps.of_shared hs
  · apply KeepsShared.of_free hs [(a.toNat, 4)]
    · intro r hr
      obtain rfl := List.mem_singleton.mp hr
      exact hfree
    · intro b _ hout
      exact Memory.setWord_apart (hout _ List.mem_cons_self) hfits
  · intro u _ b hb
    change (if lay.pd u = s.cpu.cr3 then s.cpu.mem.setWord a x else s.cpu.spaces (lay.pd u)) b =
      (if lay.pd u = s.cpu.cr3 then s.cpu.mem else s.cpu.spaces (lay.pd u)) b
    split
    · exact Memory.setWord_apart (by omega) hfits
    · rfl

/-- What `wakeup` stores into a `wait_entry`. -/
def CtxState.detaching (s : CtxState) (e : BitVec 32) : CtxState :=
  { s with cpu := { s.cpu with
      mem := ((s.cpu.mem.setWord (e + 4) 0).setWord (e + 8) 0).setWord (e + 12) 0 } }

/-- A task that sleeps is taken out of its queue. -/
theorem runs_detaching {guard : CtxState → CtxEvent → Prop} {f : ParkedStack} {e : BitVec 32}
    (hguard : ∀ s, guard s .work) (hs : lay.Ok s) (ht : s.parked t = some f)
    (he : f.entry = some e) : (ctxMachine lay).Runs guard s (s.detaching e) := by
  have hsaved := hs.parked t f ht
  have hentry := hsaved.entry e he
  have hin := hsaved.inside.2
  have hinside := lay.stack_inside t
  have hprev : (e + 4).toNat = e.toNat + 4 := by bv_omega
  have hnext : (e + 8).toNat = e.toNat + 8 := by bv_omega
  have hqueue : (e + 12).toNat = e.toNat + 12 := by bv_omega
  have hfirst := step_setWord (x := 0) hs (free_links hs ht he (by omega) (by omega) :
    lay.Free s (e + 4).toNat 4)
  have hs₁ := step_ok (e := .work) hs hfirst
  have hsecond := step_setWord (x := 0) hs₁ (free_links hs₁ ht he (by omega) (by omega) :
    lay.Free _ (e + 8).toNat 4)
  have hs₂ := step_ok (e := .work) hs₁ hsecond
  have hthird := step_setWord (x := 0) hs₂ (free_links hs₂ ht he (by omega) (by omega) :
    lay.Free _ (e + 12).toNat 4)
  exact .tail (.tail (.single (hguard _) hfirst) (hguard _) hsecond) (hguard _) hthird

/-- A child gets the memory of the program and the user stack pointer. -/
def CtxState.inheriting (lay : KernelLayout cfg) (s : CtxState) (p c : Slot) (f : StackWords) :
    CtxState where
  cpu := { s.cpu with
    mem := s.cpu.mem.setWord (lay.ctxAddr c) (s.cpu.mem.word (lay.ctxAddr p))
    spaces := Function.update s.cpu.spaces (lay.pd c) s.cpu.mem }
  parked := s.parked
  entered := Function.update s.entered c (some f)

theorem step_inherit {p c : Slot} {f : StackWords} (hs : lay.Ok s) (hp : s.entered p = some f)
    (hne : c ≠ p) (hactive : s.cpu.cr3 = lay.pd p)
    (hwindow : processVaBase ≤ f.sp.toNat ∧
      f.sp.toNat + 4 * f.words.length ≤ processVaBase + processVaSize) :
    (ctxMachine lay).step s (.inherit p c)
      (s.inheriting lay p c f) := by
  have hctx := lay.toNat_ctxAddr c
  have hend := lay.ctx_lt c
  have hsplit := lay.split_le_ctx c
  have hpd : lay.pd c ≠ s.cpu.cr3 := by
    rw [hactive]
    exact fun h => hne (lay.pd_injective h)
  have hnone : Function.update s.entered c none c = none := Function.update_self ..
  have hleave := hs.leave c
  refine ⟨f, ⟨hp, ?_, rfl, ?_, hwindow, ?_⟩, rfl, rfl⟩
  · apply Keeps.of_shared hleave
    · apply KeepsShared.of_free hleave [(lay.ctx c, 4)]
      · intro r hr
        obtain rfl := List.mem_singleton.mp hr
        exact free_uSp hleave hnone
      · intro b _ hout
        have hapart := hout _ List.mem_cons_self
        exact Memory.setWord_apart (by omega) (by omega)
    · intro u hu b hb
      have huc : u ≠ c := by
        rintro rfl
        exact hu hnone
      change (if lay.pd u = s.cpu.cr3 then s.cpu.mem.setWord _ _
        else Function.update s.cpu.spaces (lay.pd c) s.cpu.mem (lay.pd u)) b =
        (if lay.pd u = s.cpu.cr3 then s.cpu.mem else s.cpu.spaces (lay.pd u)) b
      split
      · exact Memory.setWord_apart (by omega) (by omega)
      · rw [Function.update_of_ne fun h => huc (lay.pd_injective h)]
  · exact Memory.word_setWord _ (by decide) _
  · intro b _ _
    have hchild : (if lay.pd c = s.cpu.cr3 then s.cpu.mem.setWord (lay.ctxAddr c)
        (s.cpu.mem.word (lay.ctxAddr p)) else
          Function.update s.cpu.spaces (lay.pd c) s.cpu.mem (lay.pd c)) = s.cpu.mem := by
      rw [if_neg hpd, Function.update_self]
    have hparent : s.cpu.space (lay.pd p) = s.cpu.mem := if_pos hactive.symm
    rw [hparent]
    exact congrFun hchild b

end Samples

/-- The program of task 1 has called `sys_enter`. -/
def sampleEntered : CtxState := { sampleStart with
  cpu := run sampleConfig (sysEnter sampleLayout.sched) sampleStart.cpu
  entered := Function.update sampleStart.entered 1 (some (enteredBy sampleStart.cpu 0x4F4004)) }

theorem sampleStart_sysEnter :
    (ctxMachine sampleLayout).step sampleStart (.sysEnter 1) sampleEntered := by
  have henter : sampleLayout.EnterCall sampleStart 1 0x4F4004 :=
    ⟨⟨by decide +kernel, trivial⟩, by decide +kernel, by decide +kernel, by decide +kernel, rfl, rfl,
      rfl, by decide +kernel, by decide +kernel, by decide +kernel⟩
  exact ⟨_, henter, rfl⟩

theorem sampleEntered_reachable : (ctxMachine sampleLayout).Reachable sampleEntered :=
  reachable_step sampleStart_reachable sampleStart_sysEnter

/-- The pointer to the current task is in no other structure. -/
theorem sample_sched_free {s : CtxState} (hs : sampleLayout.Ok s) :
    sampleLayout.Free s sampleLayout.sched.toNat 4 := by
  refine ⟨by decide, by decide, fun t _ => ?_, fun t f ht b _ hb hheld => ?_, fun t _ => ?_,
    by decide, by decide⟩
  · have hslots : 0x600000 ≤ sampleLayout.ctx t := sampleLayout.slots_le_ctx t
    exact Or.inl (Nat.le_add_right_of_le hslots |>.trans' (by decide))
  · have hslots : 0x600000 ≤ sampleLayout.ctx t := sampleLayout.slots_le_ctx t
    have hinside := sampleLayout.stack_inside t
    have hlow := (hs.parked t f ht).inside.1
    have hfirst := hheld.1
    have hsched : sampleLayout.sched.toNat + 4 ≤ 0x600000 := by decide
    omega
  · have hslots : 0x600000 ≤ sampleLayout.ctx t := sampleLayout.slots_le_ctx t
    exact Or.inl (hslots.trans' (by decide))

/-- Task 1 sets up the first stack of task 2, inside of a system call. -/
theorem sampleEntered_trampoline :
    ∃ s s₁, (ctxMachine sampleLayout).step sampleEntered .work s ∧
      (ctxMachine sampleLayout).step s (.trampoline 2) s₁ ∧ s₁.parked 1 = none ∧
      ∃ f, s₁.parked 2 = some f ∧ 6 ≤ f.words.length := by
  let s := sampleEntered.pushing 0x60B000 [0x60B100, sampleLayout.ctxAddr 2, 0]
  have hstart := ok_of_reaches sampleEntered_reachable
  have hstep : (ctxMachine sampleLayout).step sampleEntered .work s :=
    step_pushing hstart (t := 1) rfl (by decide) ⟨by decide +kernel, by decide +kernel⟩
  have hs := reachable_step sampleEntered_reachable hstep
  obtain ⟨entry, argc, argv, envc, envp, hfields⟩ : ∃ entry argc argv envc envp,
      s.cpu.mem.WordsAt 0x60B100 [entry, argc, argv, envc, envp] :=
    ⟨_, _, _, _, _, rfl, rfl, rfl, rfl, rfl, trivial⟩
  have hcall : sampleLayout.TrampolineCall s 2 0 0x60B100 entry argc argv envc envp := by
    refine ⟨?_, hfields, by decide +kernel,
      free_stack (ok_of_reaches hs) (t := 1) rfl ⟨by decide +kernel, by decide +kernel⟩, rfl,
      ⟨by decide +kernel, by decide +kernel, by decide +kernel⟩, by decide +kernel,
      by decide +kernel, by decide +kernel⟩
    exact ⟨by decide +kernel, by decide +kernel, by decide +kernel, trivial⟩
  exact ⟨s, _, hstep, ⟨_, _, _, _, _, _, _, hcall, rfl⟩, rfl,
    parkedByTrampoline (s.cpu.mem.word (sampleLayout.ctxAddr 2 + 4)) sampleLayout.trampolineAddr
      entry argc argv envp envc, rfl,
    by change 6 ≤ 12; decide⟩

/-- The `wait_entry` of task 1, at the top of its stack. -/
def sampleWaitEntry : BitVec 32 := 0x60BFF8

/-- `sched_schedule` stores the next task. -/
def CtxState.scheduling (s : CtxState) (t : Slot) : CtxState :=
  { s with cpu := { s.cpu with
      mem := s.cpu.mem.setWord sampleLayout.sched (sampleLayout.ctxAddr t) } }

theorem step_scheduling {s : CtxState} (hs : (ctxMachine sampleLayout).Reachable s) (t : Slot) :
    (ctxMachine sampleLayout).step s .work (s.scheduling t) :=
  step_setWord (ok_of_reaches hs) (sample_sched_free (ok_of_reaches hs))

/-- A switch does not change which task is the current one. -/
theorem word_sched_of_switchesTo {s s₁ s₂ : CtxState} {t next u : Slot} {entry : Option (BitVec 32)}
    (h : SwitchesTo sampleLayout (s.scheduling u) s₁ s₂ t next entry) :
    s₂.cpu.mem.word sampleLayout.sched = sampleLayout.ctxAddr u := by
  refine Eq.trans ?_ (Memory.word_setWord s.cpu.mem (a := sampleLayout.sched) (by decide)
    (sampleLayout.ctxAddr u))
  apply word_congr_toNat (by decide)
  intro b hlow hhigh
  have hctx : 0x600000 ≤ sampleLayout.ctx t := sampleLayout.slots_le_ctx t
  have hsched : sampleLayout.sched.toNat = 0x5F0000 := by decide
  have hsplit : sampleConfig.split.toNat = 0x500000 := by decide
  exact h.mem b (by omega) (Or.inl (by omega))

/-- Task 1 sleeps, task 2 wakes it up, and task 1 goes on. -/
structure SleepsAndResumes (s s₁ s₂ s₃ s₄ : CtxState) : Prop where
  chosen : (ctxMachine sampleLayout).step s .work (s.scheduling 2)
  sleeps : SwitchesTo sampleLayout (s.scheduling 2) s₁ s₂ 1 2 (some sampleWaitEntry)
  wakes : ∀ guard : CtxState → CtxEvent → Prop, (∀ s, guard s .work) →
    (ctxMachine sampleLayout).Runs guard s₂ ((s₂.detaching sampleWaitEntry).scheduling 1)
  resumes : SwitchesTo sampleLayout ((s₂.detaching sampleWaitEntry).scheduling 1) s₃ s₄ 2 1 none

theorem sample_sleepsAndResumes {s : CtxState} {f : ParkedStack}
    (hs : (ctxMachine sampleLayout).Reachable s) (hrun : s.parked 1 = none)
    (hf : s.parked 2 = some f) (hwords : 6 ≤ f.words.length) :
    ∃ s₁ s₂ s₃ s₄, SleepsAndResumes s s₁ s₂ s₃ s₄ := by
  have hchosen := step_scheduling hs 2
  have hs' := reachable_step hs hchosen
  obtain ⟨s₁, s₂, hsleeps⟩ := switch_pushing (some sampleWaitEntry)
    [0, 0, 0, sampleLayout.ctxAddr 1] hs' hrun hf hwords (by decide +kernel) le_rfl
    fun e he => Option.some.inj he ▸ by decide +kernel
  have hs₂ := reachable_step (reachable_step hs' hsleeps.call) hsleeps.switch
  obtain ⟨g, hg, hwords₂, hentry⟩ := hsleeps.left
  have hdetached (guard : CtxState → CtxEvent → Prop) (hguard : ∀ s, guard s .work) :
      (ctxMachine sampleLayout).Runs guard s₂ (s₂.detaching sampleWaitEntry) :=
    runs_detaching hguard (ok_of_reaches hs₂) hg hentry
  have hwoken := step_scheduling (reachable_runs hs₂ (hdetached (fun _ _ => True) fun _ => trivial)) 1
  have hwakes (guard : CtxState → CtxEvent → Prop) (hguard : ∀ s, guard s .work) :
      (ctxMachine sampleLayout).Runs guard s₂ ((s₂.detaching sampleWaitEntry).scheduling 1) :=
    .tail (hdetached guard hguard) (hguard _) hwoken
  have hs₃ := reachable_runs hs₂ (hwakes (fun _ _ => True) fun _ => trivial)
  obtain ⟨s₃, s₄, hresumes⟩ := switch_pushing none [] hs₃ hsleeps.running hg hwords₂
    (by decide +kernel) (by decide) fun e he => by cases he
  exact ⟨s₁, s₂, s₃, s₄, hchosen, hsleeps, hwakes, hresumes⟩

/-- `s'` is where the call of `ctx_switch` in `s` returns to its caller, the task `t`: behind the
call, with an empty return value, the registers that a function has to leave alone, the flags
without those of arithmetic, and all of the kernel stack but the links of the `wait_entry`
as they were, interrupts on, and in the address space of `t`. -/
structure ReturnsFromSwitch {cfg : Config} (lay : KernelLayout cfg) (s s' : State) (t : Slot)
    (entry : Option (BitVec 32)) : Prop where
  eip : s'.eip = s.mem.word (s.reg .esp)
  esp : s'.reg .esp = s.reg .esp + 4
  eax : s'.reg .eax = 0
  registers : ∀ r ∈ [Reg.ebx, .esi, .edi, .ebp], s'.reg r = s.reg r
  flags : s'.eflags &&& controlFlags = s.eflags &&& controlFlags
  interrupts : s'.eflags &&& interruptFlag = interruptFlag
  stack : ∀ b : BitVec 32, (s.reg .esp).toNat ≤ b.toNat → b.toNat < lay.stackTop t →
    ¬ InLinks entry b.toNat → s'.mem b = s.mem b
  cr3 : s'.cr3 = lay.pd t

variable {cfg : Config} {lay : KernelLayout cfg} {s s₁ s₂ s₃ s₄ s₅ s₆ s₇ : CtxState}
  {t next p c : Slot} {prev : Option Slot} {entry : Option (BitVec 32)}

theorem switch_flags (flags status : BitVec 32) :
    let back := setStatus
      (popFlags (pushFlags (flags &&& ~~~interruptFlag)) ||| interruptFlag) status
    back &&& controlFlags = flags &&& controlFlags ∧
      back &&& interruptFlag = interruptFlag := by
  intro back
  constructor
  · rw [setStatus_and _ _ (by decide) (by decide), sti_controlFlags,
      popFlags_and _ (by decide) (by decide), pushFlags_and _ (by decide), cli_controlFlags]
  · rw [setStatus_and _ _ (by decide) (by decide), sti_interruptFlag]

/-- The stack that `t` has left is popped again. -/
theorem returnsFromSwitch_of_switched {s s' : State} {v : CtxState} {stack stack' : List (BitVec 32)}
    {prevCtx prevCtx' : BitVec 32} (hcall : lay.SwitchCall v (some t) next entry stack prevCtx)
    (hsw : Switched cfg s s' stack' prevCtx' (lay.pd t) (parkedBySwitch v.cpu stack entry).sp
      (parkedBySwitch v.cpu stack entry).words)
    (hsaved : lay.Saved s'.mem t (parkedBySwitch v.cpu stack entry)) :
    ReturnsFromSwitch lay v.cpu s' t entry := by
  obtain ⟨rfl, -, -, htop⟩ := hcall.task t rfl
  obtain ⟨ret, behind, hargs⟩ := hcall.args
  obtain ⟨flags, status, hflags, heflags⟩ := hsw.flags
  have hret : v.cpu.mem.word (v.cpu.reg .esp) = ret := (hargs ▸ hcall.words).1
  obtain rfl := Option.some.inj hflags
  obtain ⟨hcontrol, hinterrupts⟩ := switch_flags v.cpu.eflags status
  rw [← heflags] at hcontrol hinterrupts
  have hsp : (parkedBySwitch v.cpu stack entry).sp + 20 = v.cpu.reg .esp :=
    BitVec.sub_add_cancel _ _
  refine ⟨?_, ?_, hsw.eax, ?_, hcontrol, hinterrupts, fun b hlow hhigh hlinks => ?_, hsw.cr3⟩
  · have heip := hsw.eip
    unfold parkedBySwitch at heip
    rw [hargs] at heip
    exact (Option.some.inj heip).symm.trans hret.symm
  · rw [hsw.esp, ← hsp, BitVec.add_assoc]
    rfl
  · intro r hr
    simp only [List.mem_cons, List.not_mem_nil, or_false] at hr
    rcases hr with rfl | rfl | rfl | rfl
    · exact (Option.some.inj hsw.ebx).symm
    · exact (Option.some.inj hsw.esi).symm
    · exact (Option.some.inj hsw.edi).symm
    · exact (Option.some.inj hsw.ebp).symm
  · -- what has been on the stack is behind the frame
    obtain ⟨m₀, hwords, hm⟩ := hsaved.words
    have hbehind := hwords.append.2
    have hlength := length_switchFrame_append v.cpu stack
    have hinside := lay.stack_inside t
    have hroom := hcall.low
    have hfar : (v.cpu.reg .esp - 20).toNat = (v.cpu.reg .esp).toNat - 20 := by bv_omega
    have haddr : (parkedBySwitch v.cpu stack entry).sp +
        BitVec.ofNat 32 (4 * (switchFrame v.cpu).reverse.length) = v.cpu.reg .esp := hsp
    rw [haddr] at hbehind
    have hheld : (parkedBySwitch v.cpu stack entry).Holds b.toNat := by
      refine ⟨?_, ?_, hlinks⟩
      · change (v.cpu.reg .esp - 20).toNat ≤ _
        omega
      · change _ < (v.cpu.reg .esp - 20).toNat + 4 * ((switchFrame v.cpu).reverse ++ stack).length
        omega
    rw [hm b hheld]
    exact hbehind.bytes hcall.words (by omega) hlow (by omega)

/-- A task that is switched away goes on as if `ctx_switch` had returned at once, in whichever way
the processor gets back to it. It gets back at once when the task is the next one itself. -/
theorem switchedTask_resumes (hs : (ctxMachine lay).Reachable s)
    (hleave : (ctxMachine lay).step s (.switch (some t) next entry) s₁) :
    (next = t → ReturnsFromSwitch lay s.cpu s₁.cpu t entry) ∧
      (next ≠ t → ∀ s₂ s₃ prev entry', (ctxMachine lay).Runs (fun _ e => ¬ e.Unparks t) s₁ s₂ →
        (ctxMachine lay).step s₂ (.switch prev t entry') s₃ →
        ReturnsFromSwitch lay s.cpu s₃.cpu t entry) := by
  have hs₁ := reachable_step hs hleave
  obtain ⟨stack, prevCtx, f, hcall, hnext, hwords, rfl⟩ := hleave
  have hleft := leaveStack_prev s.parked t (parkedBySwitch s.cpu stack entry)
  constructor
  · rintro rfl
    have hok := ok_of_reaches hs
    obtain rfl : parkedBySwitch s.cpu stack entry = f := Option.some.inj (hleft.symm.trans hnext)
    have hsw := hcall.switched hok hnext hwords
    exact returnsFromSwitch_of_switched hcall hsw (hcall.saved hsw.left)
  · intro hne s₂ s₃ prev entry' haway hback
    have hs₂ := reachable_runs hs₁ haway
    have hparked := parked_of_runs (fun _ _ he => he) haway
      ((Function.update_of_ne hne.symm _ _).trans hleft)
    obtain ⟨stack', prevCtx', hsw, hsaved⟩ := switched_of_step hs₂ hback hparked
    exact returnsFromSwitch_of_switched hcall hsw hsaved

/-- Task 1 sleeps in its system call, and task 2 wakes it up. -/
theorem switchedTask_resumes_sample :
    ∃ s s₁ s₂ s₃, (ctxMachine sampleLayout).step s (.switch (some 1) 2 (some sampleWaitEntry)) s₁ ∧
      (ctxMachine sampleLayout).Runs (fun _ e => ¬ e.Unparks 1) s₁ s₂ ∧
      (ctxMachine sampleLayout).step s₂ (.switch (some 2) 1 none) s₃ ∧
      ReturnsFromSwitch sampleLayout s.cpu s₃.cpu 1 (some sampleWaitEntry) := by
  obtain ⟨s₀, s, hstart, hsetup, hrun, f, hf, hwords⟩ := sampleEntered_trampoline
  have hs := reachable_step (reachable_step sampleEntered_reachable hstart) hsetup
  obtain ⟨s₁, s₂, s₃, s₄, hchosen, hsleeps, hwakes, hresumes⟩ :=
    sample_sleepsAndResumes hs hrun hf hwords
  have hs₁ := reachable_step (reachable_step hs hchosen) hsleeps.call
  have haway : (ctxMachine sampleLayout).Runs (fun _ e => ¬ e.Unparks 1) s₂ s₃ :=
    .tail (e := .work) (hwakes _ fun _ he => he) (fun he => he) hresumes.call
  exact ⟨s₁, s₂, s₃, s₄, hsleeps.switch, haway, hresumes.switch,
    (switchedTask_resumes hs₁ hsleeps.switch).2 (by decide) s₃ s₄ _ _ haway hresumes.switch⟩

/-- `s'` is where the call of `sys_enter` in `s` returns to the program: behind the call, with
`edi`, `ebp` and the flags without those of arithmetic as they were, and in the address space
of `t`. -/
structure ReturnsToProgram {cfg : Config} (lay : KernelLayout cfg) (s s' : State) (t : Slot) :
    Prop where
  eip : s'.eip = s.mem.word (s.reg .esp)
  esp : s'.reg .esp = s.reg .esp + 4
  edi : s'.reg .edi = s.reg .edi
  ebp : s'.reg .ebp = s.reg .ebp
  flags : s'.eflags &&& controlFlags = s.eflags &&& controlFlags
  interrupts : s'.eflags &&& interruptFlag = s.eflags &&& interruptFlag
  cr3 : s'.cr3 = lay.pd t

/-- `sys_return` in `t`, when `t` has on its stack what a call in `cpu` has left there. -/
theorem returnsToProgram_of_call {cpu : State} {ret : BitVec 32} (hok : lay.Ok s)
    (hcall : lay.ReturnCall s t) (hret : cpu.mem.word (cpu.reg .esp) = ret)
    (hentered : s.entered t = some (enteredBy cpu ret)) :
    ReturnsToProgram lay cpu (run cfg (sysReturn lay.sched) s.cpu) t ∧
      (run cfg (sysReturn lay.sched) s.cpu).reg .eax = s.cpu.reg .eax ∧
      (run cfg (sysReturn lay.sched) s.cpu).mem.word (lay.ctxAddr t + 4) = s.cpu.reg .esp := by
  obtain ⟨status, hrun⟩ := hcall.run hok hentered rfl
  rw [hrun]
  have hback : cpu.reg .esp - 32 + 36 = cpu.reg .esp + 4 := by bv_omega
  refine ⟨⟨hret.symm, ?_, ?_, ?_, ?_, ?_, hcall.active⟩, ?_, ?_⟩
  · exact hback
  · rfl
  · rfl
  · change setStatus (popFlags (pushFlags cpu.eflags)) status &&& controlFlags = _
    rw [setStatus_and _ _ (by decide) (by decide), popFlags_and _ (by decide) (by decide),
      pushFlags_and _ (by decide)]
  · change setStatus (popFlags (pushFlags cpu.eflags)) status &&& interruptFlag = _
    rw [setStatus_and _ _ (by decide) (by decide), popFlags_and _ (by decide) (by decide),
      pushFlags_and _ (by decide)]
  · rfl
  · exact Memory.word_setWord _ (by decide) _

/-- A system call returns to the program that made it, with what the kernel has put into `eax`,
whatever tasks have run in between, also when it has slept. When the kernel has taken
everything off its stack, the next call finds `k_sp` as it was. -/
theorem systemCall_returns (hs : (ctxMachine lay).Reachable s)
    (hcall : (ctxMachine lay).step s (.sysEnter t) s₁)
    (hinside : (ctxMachine lay).Runs (fun _ e => ¬ e.EndsCall t) s₁ s₂)
    (hreturn : (ctxMachine lay).step s₂ (.sysEnterReturn t) s₃) :
    ReturnsToProgram lay s.cpu s₃.cpu t ∧ s₃.cpu.reg .eax = s₂.cpu.reg .eax ∧
      (s₂.cpu.reg .esp = s₁.cpu.reg .esp →
        s₃.cpu.mem.word (lay.ctxAddr t + 4) = s.cpu.mem.word (lay.ctxAddr t + 4)) := by
  have hok₂ := ok_of_reaches (reachable_runs (reachable_step hs hcall) hinside)
  obtain ⟨ret, henter, rfl⟩ := hcall
  have hentered := entered_of_runs (fun _ _ he => he) hinside
    (g := enteredBy s.cpu ret) (Function.update_self ..)
  obtain ⟨hreturns, -, rfl⟩ := hreturn
  obtain ⟨hok, hcall⟩ := hreturns.dropArguments hok₂
  obtain ⟨hback, heax, hksp⟩ := returnsToProgram_of_call hok hcall henter.call.1 hentered
  obtain ⟨-, -, hesp, -⟩ := henter.run
  rw [run_sysEnterReturn]
  refine ⟨hback, heax, fun hsame => hksp.trans ?_⟩
  change s₂.cpu.reg .esp + 20 = _
  rw [hsame]
  change (run cfg (sysEnter lay.sched) s.cpu).reg .esp + 20 = _
  rw [hesp, BitVec.sub_add_cancel]

/-- Task 1 sleeps in its system call, task 2 wakes it up, and the call returns. -/
theorem systemCall_returns_sample :
    ∃ s₁ s₂ s₃ s₄ s₅ s₆,
      (ctxMachine sampleLayout).step sampleStart (.sysEnter 1) sampleEntered ∧
      (ctxMachine sampleLayout).Runs (fun _ e => ¬ e.EndsCall 1) sampleEntered s₁ ∧
      (ctxMachine sampleLayout).step s₁ (.switch (some 1) 2 (some sampleWaitEntry)) s₂ ∧
      (ctxMachine sampleLayout).Runs (fun _ e => ¬ e.EndsCall 1) s₂ s₃ ∧
      (ctxMachine sampleLayout).step s₃ (.switch (some 2) 1 none) s₄ ∧
      (ctxMachine sampleLayout).Runs (fun _ e => ¬ e.EndsCall 1) s₄ s₅ ∧
      (ctxMachine sampleLayout).step s₅ (.sysEnterReturn 1) s₆ ∧
      ReturnsToProgram sampleLayout sampleStart.cpu s₆.cpu 1 ∧
      s₆.cpu.mem.word (sampleLayout.ctxAddr 1 + 4) =
        sampleStart.cpu.mem.word (sampleLayout.ctxAddr 1 + 4) := by
  obtain ⟨s₀, s, hstart, hsetup, hrun, f, hf, hwords⟩ := sampleEntered_trampoline
  have hs := reachable_step (reachable_step sampleEntered_reachable hstart) hsetup
  obtain ⟨s₁, s₂, s₃, s₄, hchosen, hsleeps, hwakes, hresumes⟩ :=
    sample_sleepsAndResumes hs hrun hf hwords
  -- the kernel takes everything off its stack
  obtain ⟨x, hx⟩ : ∃ x, x = sampleEntered.cpu.reg .esp := ⟨_, rfl⟩
  let s₅ : CtxState := { s₄ with cpu := s₄.cpu.setReg .esp x }
  have hesp : s₅.cpu.reg .esp = x := by simp [s₅, State.setReg]
  have hpopped : (ctxMachine sampleLayout).step s₄ .work s₅ :=
    ⟨rfl, rfl, rfl, ⟨⟨fun _ _ _ _ _ => rfl, fun _ _ _ _ _ => rfl, fun _ => ⟨rfl, rfl⟩⟩,
      fun _ _ _ _ _ _ => rfl⟩⟩
  have hother : ¬ (CtxEvent.trampoline 2).EndsCall 1 := show (2 : Slot) ≠ 1 by decide
  have hbefore : (ctxMachine sampleLayout).Runs (fun _ e => ¬ e.EndsCall 1) sampleEntered s₁ :=
    .tail (e := .work) (.tail (e := .work)
      (.tail (e := .trampoline 2) (.single (e := .work) (fun he => he) hstart) hother hsetup)
      (fun he => he) hchosen) (fun he => he) hsleeps.call
  have haway : (ctxMachine sampleLayout).Runs (fun _ e => ¬ e.EndsCall 1) s₂ s₃ :=
    .tail (e := .work) (hwakes _ fun _ he => he) (fun he => he) hresumes.call
  have hbehind : (ctxMachine sampleLayout).Runs (fun _ e => ¬ e.EndsCall 1) s₄ s₅ :=
    .single (e := .work) (fun he => he) hpopped
  have hleft : (ctxMachine sampleLayout).Runs (fun _ e => ¬ e.EndsCall 1) sampleEntered s₂ :=
    .tail (e := .switch (some 1) 2 (some sampleWaitEntry)) hbefore (fun he => he) hsleeps.switch
  have hback : (ctxMachine sampleLayout).Runs (fun _ e => ¬ e.EndsCall 1) sampleEntered s₄ :=
    .tail (e := .switch (some 2) 1 none) (hleft.trans haway) (fun he => he) hresumes.switch
  have hinside := hback.trans hbehind
  have hentered : s₅.entered 1 = some (enteredBy sampleStart.cpu 0x4F4004) :=
    entered_of_runs (fun _ _ he => he) hinside rfl
  have hcurrent := word_sched_of_switchesTo hresumes
  have hreturn : (ctxMachine sampleLayout).step s₅ (.sysEnterReturn 1) _ :=
    ⟨⟨hcurrent, hresumes.cr3, hresumes.running⟩, ⟨_, hentered, rfl⟩, rfl⟩
  obtain ⟨hprogram, -, hksp⟩ :=
    systemCall_returns sampleStart_reachable sampleStart_sysEnter hinside hreturn
  exact ⟨s₁, s₂, s₃, s₄, s₅, _, sampleStart_sysEnter, hbefore, hsleeps.switch, haway,
    hresumes.switch, hbehind, hreturn, hprogram, hksp (hesp.trans hx)⟩

/-- The child of a fork returns from the system call of its parent: its first switch goes
to `sys_return`, which takes it to the same place in its program, with 0 for its result. -/
theorem forkedChild_returns (hs : (ctxMachine lay).Reachable s)
    (hcall : (ctxMachine lay).step s (.sysEnter p) s₁)
    (hinside : (ctxMachine lay).Runs (fun _ e => ¬ e.EndsCall p) s₁ s₂)
    (hsetup : (ctxMachine lay).step s₂ (.forkReturn c) s₃)
    (hcopy : (ctxMachine lay).step s₃ (.inherit p c) s₄)
    (hwait : (ctxMachine lay).Runs (fun _ e => ¬ e.Unparks c ∧ ¬ e.EndsCall c) s₄ s₅)
    (hswitch : (ctxMachine lay).step s₅ (.switch prev c entry) s₆)
    (hreturn : (ctxMachine lay).step s₆ (.sysReturn c) s₇) :
    s₆.cpu.eip = lay.sysReturnAddr ∧ ReturnsToProgram lay s.cpu s₇.cpu c ∧
      s₇.cpu.reg .eax = 0 := by
  have hs₂ := reachable_runs (reachable_step hs hcall) hinside
  have hs₄ := reachable_step (reachable_step hs₂ hsetup) hcopy
  have hs₅ := reachable_runs hs₄ hwait
  have hs₆ := reachable_step hs₅ hswitch
  -- what the parent has put onto its stack, and what is set up for the child
  obtain ⟨ret, henter, rfl⟩ := hcall
  have hparent₂ := entered_of_runs (fun _ _ he => he) hinside
    (g := enteredBy s.cpu ret) (Function.update_self ..)
  have hparent₃ := entered_of_step hsetup (fun he => he) hparent₂
  obtain ⟨ret', hfork, rfl⟩ := hsetup
  have hparked₄ := parked_of_step hcopy (fun he => he) (t := c)
    (f := parkedByFork (s₂.cpu.mem.word (lay.ctxAddr c + 4)) lay.sysReturnAddr)
    (Function.update_self ..)
  obtain ⟨f, hinherits, -, hentered⟩ := hcopy
  obtain rfl := Option.some.inj (hinherits.inside.symm.trans hparent₃)
  have hchild₄ : s₄.entered c = some (enteredBy s.cpu ret) := by
    rw [hentered]
    exact Function.update_self ..
  have hchild₅ := entered_of_runs (fun _ _ he => he.2) hwait hchild₄
  have hparked₅ := parked_of_runs (fun _ _ he => he.1) hwait hparked₄
  have hchild₆ := entered_of_step hswitch (fun he => he) hchild₅
  obtain ⟨stack, prevCtx, hsw, -⟩ := switched_of_step hs₅ hswitch hparked₅
  obtain ⟨hreturns, -, rfl⟩ := hreturn
  obtain ⟨hback, heax, -⟩ :=
    returnsToProgram_of_call (ok_of_reaches hs₆) hreturns henter.call.1 hchild₆
  exact ⟨(Option.some.inj hsw.eip).symm, hback, heax.trans hsw.eax⟩

/-- Task 1 forks task 2, and switches to it. -/
theorem forkedChild_returns_sample :
    ∃ s s₁ s₂ s₃, (ctxMachine sampleLayout).step s (.sysEnter 1) s₁ ∧
      (ctxMachine sampleLayout).step s₂ (.sysReturn 2) s₃ ∧
      ReturnsToProgram sampleLayout s.cpu s₃.cpu 2 ∧ s₃.cpu.reg .eax = 0 := by
  have hs₁ := reachable_step sampleStart_reachable sampleStart_sysEnter
  let s₂ := sampleEntered.pushing 0x60B000 [sampleLayout.ctxAddr 2, 0]
  have hstep : (ctxMachine sampleLayout).step sampleEntered .work s₂ :=
    step_pushing (ok_of_reaches hs₁) (t := 1) rfl (by decide) ⟨by decide +kernel, by decide +kernel⟩
  have hs₂ := reachable_step hs₁ hstep
  have hfork : sampleLayout.ForkReturnCall s₂ 2 0 :=
    ⟨⟨by decide +kernel, by decide +kernel, trivial⟩, by decide +kernel,
      free_stack (ok_of_reaches hs₂) (t := 1) rfl ⟨by decide +kernel, by decide +kernel⟩,
      by decide +kernel, rfl, by decide +kernel⟩
  let s₃ : CtxState := { s₂ with
    cpu := run sampleConfig (ctxSetupForkReturn sampleLayout.sysReturnAddr) s₂.cpu
    parked := Function.update s₂.parked 2 (some (parkedByFork
      (s₂.cpu.mem.word (sampleLayout.ctxAddr 2 + 4)) sampleLayout.sysReturnAddr)) }
  have hsetup : (ctxMachine sampleLayout).step s₂ (.forkReturn 2) s₃ := ⟨_, hfork, rfl⟩
  have hs₃ := reachable_step hs₂ hsetup
  let s₄ := s₃.inheriting sampleLayout 1 2 (enteredBy sampleStart.cpu 0x4F4004)
  have hcopy : (ctxMachine sampleLayout).step s₃ (.inherit 1 2) s₄ := step_inherit (ok_of_reaches hs₃)
    rfl (by decide) rfl (by decide +kernel)
  have hs₄ := reachable_step hs₃ hcopy
  have hcurrent := step_scheduling hs₄ 2
  have hs₅ := reachable_step hs₄ hcurrent
  have hrun : (s₄.scheduling 2).parked 1 = none := rfl
  have hchild : (s₄.scheduling 2).parked 2 = some (parkedByFork
      (s₂.cpu.mem.word (sampleLayout.ctxAddr 2 + 4)) sampleLayout.sysReturnAddr) := rfl
  obtain ⟨s₆, s₇, hswitched⟩ := switch_pushing none [] hs₅ hrun hchild (by decide)
    (by decide +kernel) (by decide) fun e he => by cases he
  have hreturn : (ctxMachine sampleLayout).step s₇ (.sysReturn 2) _ :=
    ⟨⟨word_sched_of_switchesTo hswitched, hswitched.cr3, hswitched.running⟩,
      ⟨enteredBy sampleStart.cpu 0x4F4004, hswitched.entered ▸ rfl, rfl⟩, rfl⟩
  have hinside : (ctxMachine sampleLayout).Runs (fun _ e => ¬ e.EndsCall 1) sampleEntered s₂ :=
    .single (e := .work) (fun he => he) hstep
  have hwait : (ctxMachine sampleLayout).Runs (fun _ e => ¬ e.Unparks 2 ∧ ¬ e.EndsCall 2) _ s₆ :=
    .tail (e := .work) (.single (e := .work) ⟨fun he => he, fun he => he⟩ hcurrent)
      ⟨fun he => he, fun he => he⟩ hswitched.call
  exact ⟨sampleStart, _, s₇, _, sampleStart_sysEnter, hreturn, (forkedChild_returns
    sampleStart_reachable sampleStart_sysEnter hinside hsetup hcopy hwait hswitched.switch
    hreturn).2⟩

/-- The first switch to a task goes to `task_trampoline`, called with the fields of the structure
that `ctx_setup_trampoline` has been given, and with interrupts on. The registers were meant
to be 0, but `ebx` gets the value for the flags. -/
theorem newTask_starts {tr : BitVec 32} (hs : (ctxMachine lay).Reachable s)
    (hsetup : (ctxMachine lay).step s (.trampoline t) s₁)
    (htr : s.cpu.mem.word (s.cpu.reg .esp + 8) = tr)
    (hwait : (ctxMachine lay).Runs (fun _ e => ¬ e.Unparks t) s₁ s₂)
    (hswitch : (ctxMachine lay).step s₂ (.switch prev t entry) s₃) :
    s₃.cpu.eip = lay.trampolineAddr ∧
      s₃.cpu.mem.WordsAt (s₃.cpu.reg .esp) [0, s.cpu.mem.word tr, s.cpu.mem.word (tr + 4),
        s.cpu.mem.word (tr + 8), s.cpu.mem.word (tr + 16), s.cpu.mem.word (tr + 12)] ∧
      s₃.cpu.reg .esp = s.cpu.mem.word (lay.ctxAddr t + 4) - 24 ∧
      s₃.cpu.eflags &&& controlFlags = 0 ∧ s₃.cpu.eflags &&& interruptFlag = interruptFlag ∧
      (∀ r ∈ [Reg.eax, .esi, .edi, .ebp], s₃.cpu.reg r = 0) ∧ s₃.cpu.reg .ebx = 0x202 ∧
      s₃.cpu.cr3 = lay.pd t := by
  have hs₂ := reachable_runs (reachable_step hs hsetup) hwait
  obtain ⟨ret, tr', entry, argc, argv, envc, envp, hcall, rfl⟩ := hsetup
  have hpointer : s.cpu.mem.word (s.cpu.reg .esp + 8) = tr' := by
    have hthird := hcall.call.2.2.1
    rwa [BitVec.add_assoc] at hthird
  obtain rfl := htr.symm.trans hpointer
  have hfields := hcall.fields
  simp only [Memory.WordsAt, BitVec.add_assoc, and_true] at hfields
  obtain ⟨rfl, rfl, rfl, rfl, rfl⟩ := hfields
  let top := s.cpu.mem.word (lay.ctxAddr t + 4)
  have hparked := parked_of_runs (fun _ _ he => he) hwait (Function.update_self ..)
  obtain ⟨stack, prevCtx, hsw, hsaved⟩ := switched_of_step hs₂ hswitch hparked
  have hwords := hsaved.wordsAt rfl
  obtain ⟨flags, status, hflags, heflags⟩ := hsw.flags
  obtain rfl := Option.some.inj hflags
  have hesp : s₃.cpu.reg .esp = top - 24 := by
    rw [hsw.esp]
    change top - 48 + 24 = top - 24
    bv_omega
  have hstack : s₃.cpu.mem.WordsAt (top - 48) ([0, 0, 0, 0, 0x202, lay.trampolineAddr] ++
      [0, s.cpu.mem.word tr, s.cpu.mem.word (tr + 4), s.cpu.mem.word (tr + 8),
        s.cpu.mem.word (tr + 16), s.cpu.mem.word (tr + 12)]) := hwords
  have hargs := hstack.append.2
  have hsp : top - 48 + BitVec.ofNat 32 24 = s₃.cpu.reg .esp := by
    rw [hesp]
    bv_omega
  refine ⟨(Option.some.inj hsw.eip).symm, hsp ▸ hargs, hesp, ?_, ?_, ?_,
    (Option.some.inj hsw.ebx).symm, hsw.cr3⟩
  · rw [heflags, setStatus_and _ _ (by decide) (by decide), sti_controlFlags]
    rfl
  · rw [heflags, setStatus_and _ _ (by decide) (by decide), sti_interruptFlag]
  · intro r hr
    simp only [List.mem_cons, List.not_mem_nil, or_false] at hr
    rcases hr with rfl | rfl | rfl | rfl
    · exact hsw.eax
    · exact (Option.some.inj hsw.esi).symm
    · exact (Option.some.inj hsw.edi).symm
    · exact (Option.some.inj hsw.ebp).symm

/-- Task 1 sleeps in the system call in which it has set up task 2. -/
theorem newTask_starts_sample :
    ∃ s s₁ s₂ s₃, (ctxMachine sampleLayout).step s (.trampoline 2) s₁ ∧
      (ctxMachine sampleLayout).step s₂ (.switch (some 1) 2 (some sampleWaitEntry)) s₃ ∧
      s₃.cpu.eip = sampleLayout.trampolineAddr := by
  obtain ⟨s₀, s, hstart, hsetup, hrun, f, hf, hwords⟩ := sampleEntered_trampoline
  have hs₀ := reachable_step sampleEntered_reachable hstart
  obtain ⟨s₁, s₂, s₃, s₄, hchosen, hsleeps, -⟩ :=
    sample_sleepsAndResumes (reachable_step hs₀ hsetup) hrun hf hwords
  have hwait : (ctxMachine sampleLayout).Runs (fun _ e => ¬ e.Unparks 2) s s₁ :=
    .tail (e := .work) (.single (e := .work) (fun he => he) hchosen) (fun he => he) hsleeps.call
  exact ⟨s₀, s, s₁, s₂, hsetup, hsleeps.switch,
    (newTask_starts hs₀ hsetup rfl hwait hsleeps.switch).1⟩

end Punix
